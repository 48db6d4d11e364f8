import Pddl.Proofs.Strictness

/-!
# Calls on a parser

A parser is a cursor with readers to call on it, in any order and again after a failure: what a
call has consumed, noted and declared stays.  The depth does not stay, whatever happens inside of a
call: each level that is entered is left, also by a failure that passes through it, and also where
the limit on the depth is the failure (`Reader.steps_depth`).  So between calls no level is open
(`depth_statesAfter`).
-/

namespace Pddl

namespace Reader

/-- Whatever the context and the outcome, the reader ends on the level on which it starts. -/
def RestoresDepth {σ α : Type} (depth : σ → Nat) (m : ReaderT Context (EStateM Failure σ) α) :
    Prop :=
  ∀ c s, depth (lastState (m c s)) = depth s

/-- Each level that is entered is left. -/
lemma steps_depth : Steps fun s s' => s'.depth = s.depth where
  refl := fun _ => rfl
  trans := fun h h' => h'.trans h
  peek := .onCursor (fun _ => rfl) fun _ => rfl
  advance := .onCursor (fun _ => rfl) fun _ => rfl
  note := fun _ _ => rfl
  declare := fun _ _ => rfl
  level := fun _ _ h => Nat.sub_eq_of_eq_add h

/-- All readers end on the level on which they start. -/
lemma restoresDepth_compositional : Compositional (RestoresDepth State.depth) :=
  steps_depth.compositional

end Reader

/-- The level on which the reader of a domain is. -/
def Assembly.level (assembly : Assembly) : Nat :=
  assembly.depth

/-- All readers of domains end on the level on which they start. -/
lemma Assembly.restoresDepth_compositional :
    Assembly.Compositional (Reader.RestoresDepth Reader.State.depth)
      (Reader.RestoresDepth Assembly.level) :=
  leads_compositional Reader.steps_depth

/-! ### Parsers -/

/-- The kinds of parsers: one for the parts that documents share, and one for each document. -/
inductive Parser
  | base
  | domain
  | problem
  | plan
deriving DecidableEq, Repr

namespace Parser

/-- The context of a parser, which has no limit on open expressions or the given one. -/
def context (parser : Parser) (settings : Settings) (capacity : Option Nat) : Reader.Context :=
  ⟨settings, parser = .domain, capacity⟩

/-- A parser at a token of a text, before any call.  Only one of domains has flags from the start,
and only one of domains will declare anything. -/
def start (parser : Parser) (cursor : Cursor) : Assembly :=
  match parser with
  | .domain => .ofCursor cursor
  | _ => ⟨.ofCursor cursor [], .empty⟩

/-- No level is open before any call. -/
lemma level_start (parser : Parser) (cursor : Cursor) : (parser.start cursor).level = 0 := by
  cases parser <;> rfl

end Parser

/-! ### Calls -/

/-- A call that every parser takes. -/
inductive SharedCall
  | atEnd
  | arithmeticAllowed
  | peek
  | advance
  | expect (kind : Token.Kind) (expected : String)
  | expectText (kind : Token.Kind) (text expected : String)
  | keyword (text : String)
  | closeForm (opener : Token) (reason : String)
  | require (token : Token) (feature : Feature)
  | endOfDocument
  | name (expected : String)
  | number
  | typeSpec (allowEither : Bool)
  | typedList (kind : Token.Kind) (allowEither : Bool)
  | requirements
  | atomicFormula (ground : Bool)
  | parenthesizedAtom (ground : Bool)
  | condition (temporal : Bool)
  | effect (temporal : Bool)
  | fluent
  | numericTerm
  | durationConstraint
  | nested (inner : SharedCall)

/-- Makes a call and forgets the value that it returns. -/
def SharedCall.run : SharedCall → ReadM Unit
  | .atEnd => do let _ ← Reader.atEnd
  | .arithmeticAllowed => do let _ ← Reader.arithmeticAllowed
  | .peek => do let _ ← Reader.peek
  | .advance => do let _ ← Reader.advance
  | .expect kind expected => do let _ ← Reader.expect kind expected
  | .expectText kind text expected => do let _ ← Reader.expectText kind text expected
  | .keyword text => do let _ ← Reader.keyword text
  | .closeForm opener reason => Reader.closeForm opener reason
  | .require token feature => Reader.require token feature
  | .endOfDocument => Reader.endOfDocument
  | .name expected => do let _ ← Reader.name expected
  | .number => do let _ ← Reader.number
  | .typeSpec allowEither => do let _ ← Reader.typeSpec allowEither
  | .typedList kind allowEither => do let _ ← Reader.typedList kind allowEither
  | .requirements => do let _ ← Reader.requirements
  | .atomicFormula ground => do let _ ← Reader.atomicFormula ground
  | .parenthesizedAtom ground => do let _ ← Reader.parenthesizedAtom ground
  | .condition temporal => do let _ ← Reader.anyCondition temporal
  | .effect temporal => do let _ ← Reader.anyEffect temporal
  | .fluent => do let _ ← Reader.fluent
  | .numericTerm => do let _ ← Reader.anyNumericTerm
  | .durationConstraint => do let _ ← Reader.anyDurationConstraint
  | .nested inner => Reader.nested inner.run

/-- A call that a parser of the given kind takes. -/
inductive Call : Parser → Type
  | shared {parser : Parser} (call : SharedCall) : Call parser
  | domain : Call .domain
  | anySection : Call .domain
  | skeleton : Call .domain
  | functionList : Call .domain
  | addAction (added : Action) : Call .domain
  | parameters : Call .domain
  | action : Call .domain
  | durativeAction : Call .domain
  | problem : Call .problem
  | initElement : Call .problem
  | metric : Call .problem
  | plan : Call .plan
  | planStep (index : Int) : Call .plan

namespace Call

open Assembly (ofReader)

/-- Makes a call and forgets the value that it returns. -/
def run {parser : Parser} : Call parser → AssembleM Unit
  | .shared call => ofReader call.run
  | .domain => do let _ ← Assembly.domain
  | .anySection => Assembly.anySection
  | .skeleton => do let _ ← ofReader Assembly.skeleton
  | .functionList => Assembly.functionList
  | .addAction added => Assembly.addAction added
  | .parameters => do let _ ← ofReader Reader.parameters
  | .action => do let _ ← ofReader Reader.action
  | .durativeAction => do let _ ← ofReader Reader.durativeAction
  | .problem => do let _ ← ofReader Reader.problem
  | .initElement => do let _ ← ofReader Reader.initElement
  | .metric => do let _ ← ofReader Reader.metric
  | .plan => do let _ ← ofReader Reader.plan
  | .planStep index => do let _ ← ofReader (Reader.planStep index)

/-- The states of a parser after each of several calls.  Each call starts where the one before has
stopped, also if that one has failed. -/
def statesAfter {parser : Parser} (c : Reader.Context) :
    List (Call parser) → Assembly → List Assembly
  | [], _ => []
  | call :: rest, assembly =>
    let next := Reader.lastState (call.run c assembly)
    next :: statesAfter c rest next

end Call

/-! ### The depth between calls -/

/-- A property of readers of documents holds of all shared calls. -/
lemma SharedCall.run_of_documentary {R : ∀ {α : Type}, ReadM α → Prop}
    (hR : Reader.Documentary R) (call : SharedCall) : R call.run := by
  induction call with
  | atEnd => exact hR.bind hR.atEnd fun _ => hR.pure _
  | arithmeticAllowed => exact hR.bind hR.arithmeticAllowed fun _ => hR.pure _
  | peek => exact hR.bind hR.peek fun _ => hR.pure _
  | advance => exact hR.bind hR.advance fun _ => hR.pure _
  | expect kind expected => exact hR.bind (hR.expect _ _) fun _ => hR.pure _
  | expectText kind text expected => exact hR.bind (hR.expectText _ _ _) fun _ => hR.pure _
  | keyword text => exact hR.bind (hR.keyword _) fun _ => hR.pure _
  | closeForm opener reason => exact hR.closeForm _ _
  | require token feature => exact hR.require _ _
  | endOfDocument => exact hR.endOfDocument
  | name expected => exact hR.bind (hR.name _) fun _ => hR.pure _
  | number => exact hR.bind hR.number fun _ => hR.pure _
  | typeSpec allowEither => exact hR.bind (hR.typeSpec _) fun _ => hR.pure _
  | typedList kind allowEither => exact hR.bind (hR.typedList _ _) fun _ => hR.pure _
  | requirements => exact hR.bind hR.requirements fun _ => hR.pure _
  | atomicFormula ground => exact hR.bind (hR.atomicFormula _) fun _ => hR.pure _
  | parenthesizedAtom ground => exact hR.bind (hR.parenthesizedAtom _) fun _ => hR.pure _
  | condition temporal => exact hR.bind (hR.anyCondition _) fun _ => hR.pure _
  | effect temporal => exact hR.bind (hR.anyEffect _) fun _ => hR.pure _
  | fluent => exact hR.bind hR.fluent fun _ => hR.pure _
  | numericTerm => exact hR.bind hR.anyNumericTerm fun _ => hR.pure _
  | durationConstraint => exact hR.bind hR.anyDurationConstraint fun _ => hR.pure _
  | nested inner ih => exact hR.nested ih

namespace Call

variable {parser : Parser}

/-- A property of readers of documents and domains holds of all calls. -/
lemma run_of_documentary {R : ∀ {α : Type}, ReadM α → Prop}
    {A : ∀ {α : Type}, AssembleM α → Prop} (hR : Reader.Documentary R)
    (hA : Assembly.Compositional R A) (call : Call parser) : A call.run := by
  have hread {α : Type} {m : ReadM α} (hm : R m) :
      A (do let _ ← Assembly.ofReader m : AssembleM Unit) :=
    hA.bind (hA.ofReader hm) fun _ => hA.pure _
  cases call with
  | shared call => exact hA.ofReader (call.run_of_documentary hR)
  | domain => exact hA.bind (Assembly.Compositional.domain hR hA) fun _ => hA.pure _
  | anySection => exact Assembly.Compositional.anySection hR hA
  | skeleton => exact hread hR.skeleton
  | functionList => exact Assembly.Compositional.functionList hR hA
  | addAction added => exact Assembly.Compositional.addAction hR hA _
  | parameters => exact hread hR.parameters
  | action => exact hread hR.action
  | durativeAction => exact hread hR.durativeAction
  | problem => exact hread hR.problem
  | initElement => exact hread hR.initElement
  | metric => exact hread hR.metric
  | plan => exact hread hR.plan
  | planStep index => exact hread (hR.planStep _)

/-- A call ends on the level on which it starts, whether it returns or fails. -/
lemma level_run (call : Call parser) (c : Reader.Context) (a : Assembly) :
    (Reader.lastState (call.run c a)).level = a.level :=
  call.run_of_documentary Reader.restoresDepth_compositional.toDocumentary
    Assembly.restoresDepth_compositional c a

/-- All calls of a sequence end on the level on which the sequence starts. -/
lemma level_statesAfter (c : Reader.Context) (calls : List (Call parser)) :
    ∀ a : Assembly,
      (statesAfter c calls a).map Assembly.level = List.replicate calls.length a.level := by
  induction calls with
  | nil => exact fun _ => rfl
  | cons call rest ih =>
    intro a
    have hcall := call.level_run c a
    unfold statesAfter
    rw [List.map_cons, ih, hcall]
    rfl

/-- For a parser of any kind at a token of any text, under any settings, and for any sequence of
calls: no level of nesting is open after any of the calls, whether it has returned or failed. -/
theorem depth_statesAfter (parser : Parser) (settings : Settings) (capacity : Option Nat)
    (cursor : Cursor) (calls : List (Call parser)) :
    (statesAfter (parser.context settings capacity) calls (parser.start cursor)).map
      (fun assembly => assembly.depth) = List.replicate calls.length 0 := by
  have hlevels := level_statesAfter (parser.context settings capacity) calls (parser.start cursor)
  rw [parser.level_start] at hlevels
  exact hlevels

end Call

end Pddl
