import JsonEdit.Text.Pieces

/-!
# Names of backups

* A backup lies beside its file. Its name is the file's with `.backup.` and a time put in front of
  the extension.
* The extension is what follows the last dot of a name, together with that dot. A dot at the start
  of a name begins no extension.
-/

namespace JsonEdit.Command

/-- A file's own name, cut in front of its extension. -/
def splitExtension (name : List Char) : List Char × List Char :=
  match pieces '.' name with
  | ([], _) => (name, [])
  | ([[]], _) => (name, [])
  | (leading, last) => ((join '.' leading []).dropLast, '.' :: last)

/-- A part of a name that leads nowhere else. -/
def isHere (part : List Char) : Bool :=
  part = [] || part = ['.']

/-- The folders of a name, those left out at the end that lead nowhere else. The first one stays, as
it may be the root. -/
def trimFolders : List (List Char) → List (List Char)
  | [] => []
  | p :: ps => p :: (ps.reverse.dropWhile isHere).reverse

/-- The own name of a backup. -/
def markBackup (time : String) (name : List Char) : List Char :=
  let (stem, extension) := splitExtension name
  stem ++ ".backup.".toList ++ time.toList ++ extension

def backupName (time file : String) : String :=
  let (folders, name) := pieces '/' file.toList
  String.ofList (join '/' (trimFolders folders) (markBackup time name))

end JsonEdit.Command
