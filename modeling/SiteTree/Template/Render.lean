import SiteTree.Scope
import SiteTree.Template.Exec

/-!
Rendering a template: its statements are run one after the other, and the text that they write is
the page.
-/

namespace SiteTree.Template

open Value Render

/-- Parameters are bound from the last to the first; a default is evaluated among those that are
bound already. -/
def bindParams (run : Runner) : List (String × Value × Option Expr) → Render Unit
  | [] => return ()
  | (name, v, default) :: r => do
    bindParams run r
    match v, default with
    | .undefined, some e => store name (← eval run .undefined e)
    | v, _ => store name v

/-- Each parameter with its value and its default; the defaults belong to the last ones. -/
def paramsWith (params : List String) (defaults : List Expr) (values : List Value) :
    List (String × Value × Option Expr) :=
  let absent := List.replicate (params.length - defaults.length) none
  params.zip (values.zip (absent ++ defaults.map some))

/-- Runs a task, given a way to run further ones. -/
def perform (run : Runner) : Task → Render Unit
  | .body page stmts => do
    let s ← get
    set { s with page := page, parent := none }
    let _ ← execAll run stmts
    match (← get).parent with
    | some script =>
      let _ ← closeSink
      run (.body script.page script.body)
    | none => pure ()
    modify fun t => { t with page := s.page, parent := s.parent }
  | .expand params defaults values page stmts => do
    modify fun s => { s with page := page }
    bindParams run (paramsWith params defaults values)
    let _ ← execAll run stmts
  | .again target stmts items =>
    loopOver true (some (target, stmts)) items fun v => do
      bind run target v
      execAll run stmts

/-- Runs tasks that are nested at most so many times. -/
def runWithin : Nat → Runner
  | 0, _ => Render.refuse .badOperation "recursion limit exceeded"
  | n + 1, task => perform (runWithin n) task

/-- Tasks are nested less deeply than this, by the limit on their depth. -/
def maxTasks : Nat := 2 * maxDepth

def State.start (load : String → Outcome (Option String)) (scope : Scope) (script : Script) :
    State where
  load := load
  page := script.page
  frames := [{ Frame.empty with ground := .fields (scope.fields.map fun p => (p.1, ofJson p.2)) }]
  outer := 0
  sinks := [⟨"", false⟩]
  escaping := .html
  blocks := asBlocks script
  currentBlock := none
  loaded := [script.page]
  parent := none
  macros := #[]
  closures := #[]
  spaces := #[]
  loops := #[]

def render (load : String → Outcome (Option String)) (page text : String) (scope : Scope) :
    Outcome String := do
  let script ← Script.ofText page text
  let (_, s) ← (runWithin maxTasks (.body page script.body)).run (.start load scope script)
  .ok ((s.sinks.head?.map (·.text)).getD "")

end SiteTree.Template
