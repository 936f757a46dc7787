import Calculator.Proofs.Spelling
import Calculator.Proofs.Steps

/-! # Replaying steps

The text of an operation on numbers without a sign is an expression that consists of this operation
alone.  So evaluating the text of a step gives the result of the step.
-/
namespace Calculator

namespace Operation

def tokens : Operation → List Token
  | .binary x op y => [.number x, op.token, .number y]
  | .call f x => [.name f.name, .symbol '(', .number x, .symbol ')']

theorem operandText_eq {x : Float} (hx : x.isFinite = true) (hs : Number.Unsigned x) :
    operandText x = Number.text x := by
  have hliteral := (Number.read?_eq_some_iff.mp (Number.read?_text hx hs)).1
  obtain ⟨hall, -, -⟩ := Lexeme.isLiteral_iff.mp hliteral
  unfold operandText
  split
  · next cs htext =>
    rw [htext] at hall
    rcases hall '-' List.mem_cons_self with h | h <;> cases h
  · rfl

theorem writable_token (op : Operator) : op.token.Writable := by
  cases op <;> exact .symbol (by decide)

theorem writable_name (f : Function) : Token.Writable (.name f.name) := by
  cases f <;> exact .name rfl (List.all_eq_true.mp rfl)

theorem lexes_text {o : Operation} (ho : ∀ x ∈ o.operands, x.isFinite = true ∧ Number.Unsigned x) :
    Lexes o.text o.tokens := by
  cases o with
  | binary x op y =>
    obtain ⟨hx, hxs⟩ := ho x (by simp [operands])
    obtain ⟨hy, hys⟩ := ho y (by simp [operands])
    have hleft : Token.Writable (.number x) := .number hx hxs
    have hright : Token.Writable (.number y) := .number hy hys
    have h : Lexes (written [(.number x, [' ']), (op.token, [' ']), (.number y, [])])
        [.number x, op.token, .number y] :=
      lexes_written (by simp [hleft, hright, writable_token, Text.isBlank]) (by simp)
    simp only [text, operandText_eq hx hxs, operandText_eq hy hys]
    simpa [written, Token.text, Operator.token, tokens] using h
  | call f x =>
    obtain ⟨hx, hxs⟩ := ho x (by simp [operands])
    have hopen : EndsRuns '(' := ⟨rfl, by decide⟩
    have hclose : EndsRuns ')' := ⟨rfl, by decide⟩
    have harg := (Lexes.nil.symbol (c := ')') (by decide)).token (.number hx hxs)
      fun _ => by simpa using hclose
    have hcall := (harg.symbol (c := '(') (by decide)).token (writable_name f)
      fun _ => by simpa using hopen
    simpa [text, operandText_eq hx hxs, Token.text, tokens] using hcall

section
variable {lib : Elementary} {limit : Nat}

theorem read_binary {x y r : Float} {op : Operator} (hlimit : 1 ≤ limit)
    (h : (binary x op y).perform lib = .ok r) :
    (Reader.read lib limit { tokens := (binary x op y).tokens ++ [.eof] }).result = .ok r := by
  obtain ⟨w, hpending, henclosing, hop⟩ : ∃ w : Work, w.pending = [⟨x, op⟩] ∧ w.enclosing = [] ∧
      Moves lib limit ⟨.operated x, {}⟩ op.token (.shift ⟨.operand, w⟩) := by
    by_cases hop : op = .pow
    · subst hop
      exact ⟨_, rfl, rfl, .enter (.power rfl) hlimit⟩
    · exact ⟨_, rfl, rfl, .operator hop rfl⟩
  have hsettle : ∃ w', settle lib none y w = (.ok r, w') ∧ w'.enclosing = [] := by
    simp [settle, hpending, settle.go, h, henclosing]
  obtain ⟨w', hsettle, henclosing'⟩ := hsettle
  have hruns : Runs lib limit ⟨.operand, {}⟩ (binary x op y).tokens ⟨.operated y, w⟩ :=
    .shift (by simp) (.number x {}) (.shift (by simp [Operator.token]) hop
      (.shift (by simp) (.number y w) (.refl _)))
  have hstops : Stops lib limit ⟨.operated y, w⟩ [.eof] (.ofHalt (.ok r) w' [.eof]) :=
    .value rfl hsettle henclosing'
  have hrun := (hruns.run_eq lib limit [.eof]).trans (hstops.run_eq lib limit)
  exact congrArg Reading.result hrun

theorem read_call {f : Function} {x r : Float} (hlimit : 1 ≤ limit)
    (h : (call f x).perform lib = .ok r) :
    (Reader.read lib limit { tokens := (call f x).tokens ++ [.eof] }).result = .ok r := by
  have hopen : Moves lib limit ⟨.argument f, {}⟩ (.symbol '(')
      (.shift ⟨.operand, (Work.enclose (some f) {}).deeper⟩) := .enter (.call f {}) hlimit
  obtain ⟨w, hclose, hsettle, henclosing⟩ : ∃ w : Work,
      Moves lib limit ⟨.operated x, (Work.enclose (some f) {}).deeper⟩ (.symbol ')')
        (.shift ⟨.operated r, w⟩) ∧ settle lib none r w = (.ok r, w) ∧ w.enclosing = [] :=
    ⟨_, .closeCall rfl rfl h, rfl, rfl⟩
  have hruns : Runs lib limit ⟨.operand, {}⟩ (call f x).tokens ⟨.operated r, w⟩ :=
    .shift (by simp) (.name f {}) (.shift (by simp) hopen
      (.shift (by simp) (.number x _) (.shift (by simp) hclose (.refl _))))
  have hstops : Stops lib limit ⟨.operated r, w⟩ [.eof] (.ofHalt (.ok r) w [.eof]) :=
    .value rfl hsettle henclosing
  have hrun := (hruns.run_eq lib limit [.eof]).trans (hstops.run_eq lib limit)
  exact congrArg Reading.result hrun

theorem read_tokens {o : Operation} {r : Float} (hlimit : 1 ≤ limit)
    (h : o.perform lib = .ok r) :
    (Reader.read lib limit { tokens := o.tokens ++ [.eof] }).result = .ok r := by
  cases o with
  | binary x op y => exact read_binary hlimit h
  | call f x => exact read_call hlimit h

end

end Operation

/-- Every step of an evaluation whose operands are finite and have no sign can be replayed: its text
evaluates to its result, whether the evaluation itself succeeds or not. -/
theorem steps_replay (config : Config) (line : List Char) {s : Step}
    (hs : s ∈ (config.evaluate line).steps)
    (hoperands : ∀ x ∈ s.operation.operands, x.isFinite = true ∧ Number.Unsigned x) :
    (Config.evaluate { elementary := config.elementary } s.operation.text).result =
      .ok s.result := by
  -- Nothing has to be known about the numbers of the line, only that each step was performed.
  have hall : Preserves config.elementary fun _ => True := fun _ _ _ _ => trivial
  obtain ⟨-, hsteps⟩ := Config.evaluate_holds hall line fun _ _ _ _ => trivial
  have htokens := (Operation.lexes_text hoperands).tokenize
  simp only [Config.evaluate, htokens]
  exact Operation.read_tokens (Nat.le_add_left 1 255) (hsteps s hs).performed

/-- The line fails at its end, behind a step that can be replayed. -/
theorem product_replays :
    let line := ['2', '*', '3', ')']
    let product := Operation.binary 2 .mul 3
    (Config.evaluate {} line).result = .error (.unexpected (.kind .eof) (.symbol ')')) ∧
      (Config.evaluate {} line).steps = [⟨product, 6⟩] ∧
      (Config.evaluate {} product.text).result = .ok 6 := by
  intro line product
  have hcut : Cutting [.digits ['2'], .mark '*', .digits ['3'], .mark ')'] line :=
    .cons (Lexeme.accepted_digits rfl) (by simp [Lexeme.ContinuedBy]) <|
    .cons (.mark (by decide)) (by simp [Lexeme.ContinuedBy]) <|
    .cons (Lexeme.accepted_digits rfl) (by simp [Lexeme.ContinuedBy]) <|
    .cons (.mark (by decide)) (by simp [Lexeme.ContinuedBy]) .nil
  have htokens : tokenize line = .ok [.number 2, .symbol '*', .number 3, .symbol ')', .eof] :=
    tokenize_of_cutting hcut (.cons (.number (by decide +kernel)) (.cons (.symbol (by decide))
      (.cons (.number (by decide +kernel)) (.cons (.symbol (by decide)) .nil))))
  have hperform : product.perform Elementary.native = .ok 6 :=
    Operation.perform_eq_ok_iff.mpr ⟨rfl, by decide +kernel, by decide +kernel, rfl⟩
  have heval : Config.evaluate {} line =
      ⟨line, .error (.unexpected (.kind .eof) (.symbol ')')), [⟨product, 6⟩]⟩ := by
    have hopened : settle Elementary.native (some .mul) 2 ⟨[], [], 0, []⟩ = (.ok 2, {}) := rfl
    have hsettle : settle Elementary.native none 3 ⟨[⟨2, .mul⟩], [], 0, []⟩ =
        (.ok 6, ⟨[], [], 0, [⟨product, 6⟩]⟩) := by
      simp [settle, settle.go, product, hperform]
    have hmul : Token.operator? (.symbol '*') = some .mul := rfl
    have hclose : Token.operator? (.symbol ')') = none := rfl
    simp [Config.evaluate, htokens, Config.read, Reader.read, State.run, State.step, hmul, hopened,
      hclose, hsettle, close, Reading.ofHalt]
  have hstep : (⟨product, 6⟩ : Step) ∈ (Config.evaluate {} line).steps := by
    rw [heval]
    exact List.mem_singleton_self _
  refine ⟨by rw [heval], by rw [heval], ?_⟩
  exact steps_replay {} line hstep (by decide +kernel)

end Calculator
