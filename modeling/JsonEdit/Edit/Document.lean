import JsonEdit.Edit.Infer
import JsonEdit.Edit.Target
import JsonEdit.Json.Checker
import JsonEdit.Json.Printer

/-!
# Documents as text

* `readDocument` and `checkDocument` are the reader and the checker with their errors among the
  errors of an edit.
* `canonical` is a document in canonical layout; `editDocument` stores a value given as free text.
* The document is looked at before the path, the path before the tree, and the value last.
-/

namespace JsonEdit

def readDocument (text : String) : Except EditError Value :=
  (Json.read text).mapError .malformed

def checkDocument (text : String) : Except EditError Unit :=
  (Json.check text).mapError .malformed

def readPath (text : String) : Except EditError Path :=
  (Path.parse text).mapError (.rejected text)

/-- The same document in canonical layout. -/
def canonical (text : String) : Except EditError String :=
  (readDocument text).map Json.print

/-- The target that a path has in a document. -/
def findTarget (document path : String) : Except EditError (Value × Target) := do
  let root ← readDocument document
  let path ← readPath path
  let target ← Target.find root path
  return (root, target)

/-- The document, in canonical layout, with the value that `raw` stands for at the end of the path.
-/
def editDocument (document path raw : String) : Except EditError String := do
  let (root, target) ← findTarget document path
  let parent ← target.assign (infer raw)
  return Json.print (root.put target.location parent)

end JsonEdit
