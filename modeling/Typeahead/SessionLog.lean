/-
The directory of session logs.

Every session writes a log file of its own into the log directory.  Before that, the directory is
made if need be, and session logs that have not been written to for a week are removed.

Main definitions:

* `Typeahead.SessionLog.defaultDirectory` — where logs go unless told otherwise;
* `Typeahead.SessionLog.removeExpired` — drops the session logs that are past their time;
* `Typeahead.SessionLog.start` — what starting a session does to the files.
-/

import Typeahead.Files.Tree

set_option relaxedAutoImplicit false
set_option autoImplicit false

namespace Typeahead

namespace SessionLog

/-- The directory of the program inside the cache directory. -/
def directoryName : String := "syntax-assist"

/-- The cache directory: the one that is set, if it is absolute, and otherwise the usual one in
the home directory.  Without a home directory that is set, the one of the account is taken. -/
def cacheDirectory (cacheHome home : Option String) (accountHome : String) : String :=
  match cacheHome.filter Path.isAbsolute with
  | some path => path
  | none => Path.join ((home.filter fun path => !path.isEmpty).getD accountHome) ".cache"

/-- Where logs go unless told otherwise. -/
def defaultDirectory (cacheHome home : Option String) (accountHome : String) : String :=
  Path.join (cacheDirectory cacheHome home accountHome) directoryName

/-- Session logs are kept for a week. -/
def retentionSeconds : Nat := 7 * 24 * 60 * 60

/-- The name of the log file of a session. -/
def fileName (timeStamp process : String) : String :=
  "session-" ++ timeStamp ++ "-" ++ process ++ ".log"

/-- Whether a name is that of a session log. -/
def isSessionLog (name : String) : Bool := name.startsWith "session-" && name.endsWith ".log"

/-- Whether an object is a file that has not been written to for a week. -/
def isExpired : FileObject → Bool
  | .file _ age => decide (retentionSeconds ≤ age)
  | _ => false

/-- Removes the session logs in a directory that are past their time. -/
def removeExpired (files : FileTree) (directory : Location) : FileTree :=
  let old := (files.entryNames directory).filter fun name =>
    isSessionLog name && (files.object? (directory ++ [name])).any isExpired
  old.foldl (fun files name => files.erase (directory ++ [name])) files

/-- What starting a session does to the files: without a directory nothing, otherwise the
directory is made, cleaned up and given a new log file. -/
def start (files : FileTree) (directory : Option String) (timeStamp process : String) :
    Except FileError FileTree := do
  let some path := directory | return files
  let files ← files.makeDirectories path
  let files := match files.locate path with
    | .ok location => removeExpired files location
    | .error _ => files
  let location ← files.locateNew (Path.join path (fileName timeStamp process))
  return files.insert location (.file .empty 0)

end SessionLog

end Typeahead
