import Calculator.Failure

/-! # Reading and evaluating tokens

The tokens of an expression are consumed from left to right, one token of lookahead at a time,
and every operation is carried out as soon as both its operands are complete.  What is still
open is kept in `Work`: left operands that wait for their right operand, and the groups and
calls around them.  Reading stops at the first failure, and the tokens from there on stay in
the reader.

There is no sign: an operand is a number, a parenthesised expression or a call.
-/
namespace Calculator

structure Step where
  operation : Operation
  result : Float

structure Pending where
  left : Float
  op : Operator

structure Enclosing where
  call : Option Function
  pending : List Pending

/-- What is open, innermost first, and the steps taken so far, newest first. -/
structure Work where
  pending : List Pending := []
  enclosing : List Enclosing := []
  depth : Nat := 0
  steps : List Step := []

def Work.enclose (call : Option Function) (work : Work) : Work :=
  { work with pending := [], enclosing := ⟨call, work.pending⟩ :: work.enclosing }

/-- What the next token has to be: the start of an operand, the parenthesis behind a function
name, or something that may follow a complete operand. -/
inductive Stage where
  | operand
  | argument (f : Function)
  | operated (value : Float)

structure State where
  stage : Stage := .operand
  work : Work := {}

/-- Either the token is consumed and reading goes on, or reading fails before or behind it. -/
inductive Move where
  | shift (next : State)
  | halt (failure : Failure) (work : Work) (consumed : Bool)

section
variable (lib : Elementary) (limit : Nat)

/-- Applies the waiting operators that come before the given one; before the end of a group, of
a call or of the line, all of them. A power gives its level of nesting back before it is
computed. -/
def settle (next : Option Operator) (value : Float) (work : Work) : Except Failure Float × Work :=
  go value work.pending work.depth work.steps
where
  go (right : Float) : List Pending → Nat → List Step → Except Failure Float × Work
    | [], depth, steps => (.ok right, { work with pending := [], depth, steps })
    | p :: ps, depth, steps =>
      if next.any p.op.yieldsTo then
        (.ok right, { work with pending := p :: ps, depth, steps })
      else
        let depth := if p.op = .pow then depth - 1 else depth
        let operation := Operation.binary p.left p.op right
        match operation.perform lib with
        | .ok result => go result ps depth (⟨operation, result⟩ :: steps)
        | .error e => (.error e, { work with pending := ps, depth, steps })

def enter (work : Work) : Move :=
  let work := { work with depth := work.depth + 1 }
  if limit < work.depth then .halt (.nestingTooDeep limit) work true
  else .shift { stage := .operand, work }

def leave (around : Enclosing) (outer : List Enclosing) (value : Float) (work : Work) : Move :=
  let work := { work with pending := around.pending, enclosing := outer, depth := work.depth - 1 }
  match around.call with
  | none => .shift { stage := .operated value, work }
  | some f =>
    let operation := Operation.call f value
    match operation.perform lib with
    | .ok result =>
      let work := { work with steps := ⟨operation, result⟩ :: work.steps }
      .shift { stage := .operated result, work }
    | .error e => .halt e work true

/-- A complete operand, all of whose waiting operators are applied, before a token that is no
operator and does not end the line. -/
def close (value : Float) (t : Token) (work : Work) : Move :=
  match work.enclosing with
  | [] => .halt (.unexpected (.kind .eof) t) work false
  | around :: outer =>
    if t.isSymbol ')' then leave lib around outer value work
    else .halt (.unexpected (.symbol ')') t) work false

def State.finish (s : State) : Except Failure Float × Work :=
  match s.stage with
  | .operand => (.error (.unexpected .operand .eof), s.work)
  | .argument _ => (.error (.unexpected (.symbol '(') .eof), s.work)
  | .operated value =>
    match settle lib none value s.work with
    | (.error e, work) => (.error e, work)
    | (.ok value, work) =>
      if work.enclosing.isEmpty then (.ok value, work)
      else (.error (.unexpected (.symbol ')') .eof), work)

def Token.operator? : Token → Option Operator
  | .symbol c => Operator.ofSymbol? c
  | _ => none

def State.step (s : State) (t : Token) : Move :=
  match s.stage with
  | .operand =>
    match t with
    | .number x => .shift { s with stage := .operated x }
    | .name n =>
      match Function.ofName? n with
      | some f => .shift { s with stage := .argument f }
      | none => .halt (.undefinedFunction n) s.work false
    | .symbol '(' => enter limit (s.work.enclose none)
    | _ => .halt (.unexpected .operand t) s.work false
  | .argument f =>
    if t.isSymbol '(' then enter limit (s.work.enclose (some f))
    else .halt (.unexpected (.symbol '(') t) s.work false
  | .operated value =>
    match settle lib t.operator? value s.work with
    | (.error e, work) => .halt e work false
    | (.ok value, work) =>
      match t.operator? with
      | none => close lib value t work
      | some op =>
        let work := { work with pending := ⟨value, op⟩ :: work.pending }
        if op = .pow then enter limit work else .shift { stage := .operand, work }

end

/-- The tokens still to be read, and the levels of nesting that are counted as open.  The end
of the list counts as an end token. -/
structure Reader where
  tokens : List Token
  depth : Nat := 0

structure Reading where
  result : Except Failure Float
  steps : List Step
  rest : Reader

def Reading.ofHalt (result : Except Failure Float) (work : Work) (tokens : List Token) : Reading :=
  { result, steps := work.steps.reverse, rest := { tokens, depth := work.depth } }

section
variable (lib : Elementary) (limit : Nat)

def State.run (s : State) : List Token → Reading
  | [] =>
    let (result, work) := s.finish lib
    .ofHalt result work []
  | .eof :: ts =>
    let (result, work) := s.finish lib
    .ofHalt result work (.eof :: ts)
  | t :: ts =>
    match s.step lib limit t with
    | .halt e work consumed => .ofHalt (.error e) work (if consumed then ts else t :: ts)
    | .shift next => next.run ts

def Reader.read (r : Reader) : Reading :=
  State.run lib limit { work := { depth := r.depth } } r.tokens

end

end Calculator
