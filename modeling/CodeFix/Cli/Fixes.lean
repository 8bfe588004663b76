import CodeFix.Cli.Session

/-!
# Listing and applying fixes

A fix is chosen by its place in the list of fixes at a location. It can be previewed, which computes
the new texts and changes nothing, or executed, which puts it into the snapshot and writes the
documents that are different afterwards.
-/

namespace CodeFix

/-- The change that a document makes to its file. -/
def FileChange.ofDocument (d : Document) : FileChange := ⟨d.path, d.text⟩

namespace CodeAction

/-- The changes of an action, as its payload has them. -/
def preview (a : CodeAction) : EditM (List FileChange) := do
  return (← a.changedDocuments).map .ofDocument

/-- The changes that a solution goes through when the action is applied to it. -/
def execute (a : CodeAction) (s : Solution) : EditM (List FileChange) := do
  let applied ← a.apply s
  return (applied.changedDocuments s).map .ofDocument

end CodeAction

/-- The action with an index. -/
def selectFix (actions : List CodeAction) (index : Nat) (l : Location) :
    Except CommandFailure CodeAction :=
  match actions[index]? with
  | some a => .ok a
  | none => .error (.noSuchFix index actions.length l)

/-! ## Reports -/

/-- Reports a list of fixes. -/
def listReport (l : Location) (rule : String) (actions : List CodeAction) : Report :=
  let numbered := actions.zipIdx
  let rows := numbered.map fun (a, i) ↦ s!"\n  [{i}] {a.title}"
  { fields := [
      ("location", .text l.text), ("rule", .text rule), ("count", .nat actions.length),
      ("fixes", .list (numbered.map fun (a, i) ↦ .record [
        ("index", .nat i), ("title", .text a.title),
        ("equivalence_key", .text a.equivalenceKey)]))]
    text :=
      if actions.isEmpty then s!"{l.text} ({rule}): no fixes"
      else s!"{l.text} ({rule}):" ++ String.join rows }

/-- A changed file in a report, with its text if it was not written. -/
structure ReportedFile where
  file : String
  newText : Option String

/-- Reports the files that a fix changes. -/
def applyReport (fix : String) (dryRun : Bool) (files : List ReportedFile) : Report :=
  let verb := if dryRun then "would change" else "changed"
  let row (f : ReportedFile) :=
    "\n--- " ++ f.file ++ ((f.newText.map fun t ↦ "\n" ++ t).getD "")
  { fields := [
      ("fix", .text fix), ("dry_run", .bool dryRun),
      ("changes", .list (files.map fun f ↦ .record (
        ("file", .text f.file) :: (f.newText.map fun t ↦ ("new_text", Data.text t)).toList)))]
    text := s!"{fix}: {verb} {files.length} file(s)" ++ String.join (files.map row) }

/-! ## Commands -/

namespace Session

def listFixes (s : Session) (l : Location) (rule : String) : CommandM Report := do
  let w ← s.loadWorkspace
  return listReport l rule (← s.fixesAt w l rule)

def previewFix (a : CodeAction) : CommandM Report := do
  let changes ← CommandM.ofDrawing .fix a.preview
  return applyReport a.title true (changes.map fun c ↦ ⟨c.path.text, some c.text⟩)

/-- Writes the files that a fix changes. -/
def executeFix (s : Session) (w : Workspace) (a : CodeAction) : CommandM Report := do
  let changes ← CommandM.ofDrawing .fix (a.execute w.solution)
  let files := changes.map fun c ↦ FileChange.mk (w.root.join c.path) c.text
  files.forM CommandM.write
  return applyReport a.title false (files.map fun f ↦ ⟨(s.output.relative f.path).text, none⟩)

/-- Previews or executes the fix with an index. -/
def applyFix (s : Session) (l : Location) (index : Nat) (rule : String) (execute : Bool) :
    CommandM Report := do
  let w ← s.loadWorkspace
  let a ← CommandM.ofExcept id (selectFix (← s.fixesAt w l rule) index l)
  if execute then s.executeFix w a else previewFix a

def listRules (s : Session) : Report :=
  let rules := s.service.rules
  let row (r : RuleInfo) := r.provider ++ ": " ++ String.intercalate ", " r.ruleIds
  { fields := [
      ("count", .nat rules.length),
      ("rules", .list (rules.map fun r ↦ .record [
        ("provider", .text r.provider), ("diagnostic_ids", .texts r.ruleIds)]))]
    text := String.intercalate "\n" (rules.map row) }

end Session

end CodeFix
