import StackLang.Proofs.Session.Service
import StackLang.Request.Field

namespace EStateM.Result

/-- The same result with another view of the state that is left. -/
def mapState {ε σ τ α : Type} (f : σ → τ) : EStateM.Result ε σ α → EStateM.Result ε τ α
  | .ok a s => .ok a (f s)
  | .error e s => .error e (f s)

end EStateM.Result

namespace StateT

theorem mapM_cons {α β σ : Type} (f : α → StateM σ β) (a : α) (as : List α) (s : σ) :
    (a :: as).mapM f s =
      ((f a s).1 :: (as.mapM f (f a s).2).1, (as.mapM f (f a s).2).2) := by
  rw [List.mapM_cons]
  rfl

/-- What commutes with a view of the state for one step does so for a list of them. -/
theorem mapM_view {α β σ : Type} {f : α → StateM σ β} {view : σ → σ}
    (h : ∀ a s, f a (view s) = (f a s).map id view) (as : List α) (s : σ) :
    as.mapM f (view s) = (as.mapM f s).map id view := by
  induction as generalizing s with
  | nil => rfl
  | cons a as ih =>
    rw [mapM_cons, mapM_cons, h a s]
    change (_ :: (as.mapM f (view (f a s).2)).1, (as.mapM f (view (f a s).2)).2) = _
    rw [ih]
    rfl

end StateT

namespace StackLang

namespace Machine

def untraced (m : Machine) : Machine := { m with trace := .off }

theorem run_untraced (m : Machine) (pieces : List (List Command)) :
    m.untraced.run pieces = (m.run pieces).mapState untraced := by
  induction m, pieces using run_induction with
  | finished m => rw [run_nil, run_nil]; rfl
  | exhausted m pieces ih => rw [run_exhausted, run_exhausted, ih]
  | performed m c rest pieces calls stack hc ih =>
    have hc' : c.perform m.untraced.stack = .ok calls stack := hc
    rw [run_of_perform_ok hc, run_of_perform_ok hc', ← ih]
    rfl
  | failed m c rest pieces e stack hc =>
    have hc' : c.perform m.untraced.stack = .error e stack := hc
    rw [run_of_perform_error hc, run_of_perform_error hc']
    rfl

theorem evaluate_untraced (m : Machine) (code : List Command) :
    m.untraced.evaluate code = (m.evaluate code).mapState untraced := m.run_untraced [code]

theorem apply_untraced (m : Machine) (b : Builtin) :
    m.untraced.apply b = (m.apply b).mapState untraced := by
  cases b with
  | exec =>
    rw [apply, apply, show m.untraced.stack = m.stack from rfl]
    cases Stack.popBlock m.stack with
    | ok body stack => exact evaluate_untraced ⟨stack, m.trace.record (.executed body)⟩ body
    | error e stack => rfl
  | primitive p =>
    rw [apply, apply, show m.untraced.stack = m.stack from rfl]
    cases p.apply m.stack <;> rfl

end Machine

theorem Program.apply_untraced (p : Program) (style : ArgumentStyle) (arguments : List Int)
    (trace : Trace) :
    p.apply style arguments .off = (p.apply style arguments trace).mapState fun _ => .off := by
  have h := Machine.evaluate_untraced ⟨arguments.map .int, trace⟩ p.body
  unfold apply
  split
  · rw [show (⟨arguments.map .int, .off⟩ : Machine) =
      Machine.untraced ⟨arguments.map .int, trace⟩ from rfl, h]
    cases Machine.evaluate ⟨arguments.map .int, trace⟩ p.body with
    | error e m => rfl
    | ok _ m =>
      dsimp only [EStateM.Result.mapState, Machine.untraced]
      cases m.stack.result <;> rfl
  · rfl

namespace Session

def untraced (s : Session) : Session := { s with trace := .off }

theorem call_untraced (style : ArgumentStyle) (name : String) (arguments : List Int)
    (s : Session) :
    call style name arguments s.untraced = (call style name arguments s).mapState untraced := by
  unfold call
  rw [show s.untraced.registry = s.registry from rfl]
  cases s.registry.find? name with
  | none => rfl
  | some p =>
    dsimp only
    rw [show s.untraced.trace = .off from rfl, p.apply_untraced style arguments s.trace]
    cases p.apply style arguments s.trace <;> rfl

theorem serve_untraced (r : Request) (s : Session) :
    serve r s.untraced = (serve r s).mapState untraced := by
  cases r with
  | definition name p => rfl
  | call name arguments =>
    have h := call_untraced .tuple name arguments (s.record (.call name arguments))
    rw [serve_call, serve_call, show s.untraced.record (.call name arguments) =
      (s.record (.call name arguments)).untraced from rfl, h]
    cases call .tuple name arguments (s.record (.call name arguments)) <;> rfl

theorem interpret_untraced (items : List Form) (s : Session) :
    interpret items s.untraced = (interpret items s).map id untraced := by
  have h (r : Request) := serve_untraced r (s.record (.request items false))
  unfold interpret
  rw [show s.untraced.record (.request items false) =
    (s.record (.request items false)).untraced from rfl]
  cases Request.ofForms items with
  | error e => rfl
  | ok r =>
    dsimp only
    rw [h]
    cases serve r (s.record (.request items false)) <;> rfl

theorem respond_untraced (f : Form) (s : Session) :
    respond f s.untraced = (respond f s).map id untraced := by
  cases f with
  | list items => exact interpret_untraced items s
  | _ => rfl

/-- Sessions that remember the same programs answer a form alike. -/
theorem respond_congr (f : Form) {s t : Session} (h : s.registry = t.registry) :
    (respond f s).1 = (respond f t).1 ∧
      (respond f s).2.registry = (respond f t).2.registry := by
  -- Without their notes the two sessions are one and the same.
  have hst : (respond f s).map id untraced = (respond f t).map id untraced := by
    rw [← respond_untraced, ← respond_untraced, untraced, untraced, h]
  have hanswer := congrArg Prod.fst hst
  have hregistry := congrArg registry (congrArg Prod.snd hst)
  exact ⟨hanswer, hregistry⟩

theorem trace_respond (f : Form) {s : Session} (h : s.trace = .off) :
    (respond f s).2.trace = .off := by
  have hs : s = s.untraced := by rw [untraced, ← h]
  rw [hs, respond_untraced]
  rfl

/-- All that a session can be asked for. -/
inductive Step where
  | interpret (items : List Form)
  | respond (f : Form)
  | serve (r : Request)
  | call (style : ArgumentStyle) (name : String) (arguments : List Int)
  /-- A definition and a call from loosely typed values. -/
  | define (name arity : Field) (body : List Command)
  | callWith (name arguments : Field)

inductive Reply where
  | answer (text : Option String)
  | served (result : Option Int)
  | failed (e : Error)
  /-- The values stand for no request. -/
  | rejected

def Reply.ofResult {α : Type} (result : α → Option Int) :
    EStateM.Result Error Session α → Reply × Session
  | .ok a s => (.served (result a), s)
  | .error e s => (.failed e, s)

def serve? : Option Request → StateM Session Reply
  | none => fun s => (Reply.rejected, s)
  | some r => fun s => Reply.ofResult id (Session.serve r s)

def Step.take (v : Validation) : Step → StateM Session Reply
  | .interpret items => return .answer (← Session.interpret items)
  | .respond f => return .answer (← Session.respond f)
  | .serve r => serve? (some r)
  | .call style name arguments => fun s => Reply.ofResult some (Session.call style name arguments s)
  | .define name arity body => serve? (Request.definition? v name arity body)
  | .callWith name arguments => serve? (Request.call? v name arguments)

theorem Reply.ofResult_mapState {α : Type} (result : α → Option Int)
    (r : EStateM.Result Error Session α) :
    ofResult result (r.mapState untraced) = (ofResult result r).map id untraced := by
  cases r <;> rfl

theorem serve?_untraced (r? : Option Request) (s : Session) :
    serve? r? s.untraced = (serve? r? s).map id untraced := by
  cases r? with
  | none => rfl
  | some r =>
    change Reply.ofResult id (Session.serve r s.untraced) = _
    rw [serve_untraced, Reply.ofResult_mapState]
    rfl

theorem Step.take_untraced (v : Validation) (step : Step) (s : Session) :
    step.take v s.untraced = (step.take v s).map id untraced := by
  cases step with
  | interpret items =>
    change ((Session.interpret items s.untraced).map Reply.answer id) = _
    rw [interpret_untraced]
    rfl
  | respond f =>
    change ((Session.respond f s.untraced).map Reply.answer id) = _
    rw [respond_untraced]
    rfl
  | serve r => exact serve?_untraced (some r) s
  | call style name arguments =>
    change Reply.ofResult some (Session.call style name arguments s.untraced) = _
    rw [call_untraced, Reply.ofResult_mapState]
    rfl
  | define name arity body => exact serve?_untraced _ s
  | callWith name arguments => exact serve?_untraced _ s

/-- However a session is used, the replies and the registry do not depend on the notes. -/
theorem steps_untraced (v : Validation) (steps : List Step) (s : Session) :
    steps.mapM (Step.take v) s.untraced = (steps.mapM (Step.take v) s).map id untraced :=
  StateT.mapM_view (Step.take_untraced v) steps s

end Session
end StackLang
