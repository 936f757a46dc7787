import Calculator.Echo
import Calculator.Proofs.Cutting
import Calculator.Proofs.Limit
import Calculator.Proofs.Syntax
import Calculator.Proofs.Words

/-! # Echoed expressions

The echo of an expression depends on its visible characters only and keeps them in order.  Of an
expression that has a value, the operators are set off by spaces and nothing else is.
-/
namespace Calculator
open Text Number

/-! ## One character -/

namespace Echo

/-- The spaces around a visible character, and the character that is remembered behind it. -/
structure Placed (last c : Char) (lead trail : List Char) (last' : Char) : Prop where
  before : lead = [] ∨ lead = [' '] ∧ (Lexeme.isMark c = true ∨ last = ')')
  behind : trail = [] ∨ trail = [' '] ∧ Lexeme.isMark c = true
  close : last' = ')' → c = ')' ∧ trail = []

/-- Whether a name, and nothing but digits behind it, stands before a parenthesis. -/
def naming (named : Bool) (c : Char) : Bool := if c.isAlpha then true else named && c.isDigit

def setOff (c : Char) : List Char := if (Operator.ofSymbol? c).isSome then [' ', c, ' '] else [c]

variable {last c : Char} {named : Bool} {cs ds : List Char}

theorem isOperator_iff : isOperator c = true ↔ c ∈ ['+', '-', '*', '/', '^', '%'] :=
  List.contains_iff_mem

theorem isSome_ofSymbol? (c : Char) : (Operator.ofSymbol? c).isSome = isOperator c := by
  rw [Bool.eq_iff_iff, isOperator_iff, Operator.ofSymbol?, List.find?_isSome]
  simp only [Operator.all, List.mem_cons, List.not_mem_nil, or_false, exists_eq_or_imp,
    exists_eq_left, Operator.symbol, beq_iff_eq, @eq_comm _ c]
  tauto

theorem mark_cases (h : Lexeme.isMark c = true) :
    isOperator c = true ∨ c = '(' ∨ c = ')' ∨ c = ',' := by
  rw [Lexeme.isMark_iff] at h
  rw [isOperator_iff]
  simp only [List.mem_cons, List.not_mem_nil, or_false] at h ⊢
  tauto

theorem isMark_of_isOperator (h : isOperator c = true) : Lexeme.isMark c = true := by
  rw [isOperator_iff] at h
  rw [Lexeme.isMark_iff]
  simp only [List.mem_cons, List.not_mem_nil, or_false] at h ⊢
  tauto

theorem unmarked (h : Lexeme.isMark c = false) :
    isOperator c = false ∧ (c == '(') = false ∧ (c == ')') = false ∧ (c == ',') = false := by
  refine ⟨Bool.eq_false_iff.mpr fun ho => ?_, ?_, ?_, ?_⟩
  · rw [isMark_of_isOperator ho] at h
    cases h
  all_goals
    rw [beq_eq_false_iff_ne]
    rintro rfl
    cases h

theorem spaced_operator (h : isOperator c = true) :
    spaced last named (c :: cs) =
      (if sticks last then [' ', c, ' '] else [c, ' ']) ++ spaced ' ' named cs := by
  rw [spaced, if_pos h]

theorem spaced_open : spaced last named ('(' :: cs) =
    (if !named && sticks last then [' ', '('] else ['(']) ++ spaced '(' false cs := rfl

theorem spaced_blank (h : isBlank c = true) :
    spaced last named (c :: cs) = spaced last named cs := by
  have hmark : Lexeme.isMark c = false := Bool.eq_false_iff.mpr fun hmark => by
    rw [Lexeme.isBlank_of_isMark hmark] at h
    cases h
  obtain ⟨hoperator, hopen, hclose, hcomma⟩ := unmarked hmark
  simp only [spaced, hoperator, hopen, hclose, hcomma, h, Bool.false_eq_true, if_false, if_true]

theorem spaced_plain (hmark : Lexeme.isMark c = false) (hblank : isBlank c = false) :
    spaced last named (c :: cs) =
      (if last == ')' then [' ', c] else [c]) ++ spaced c (naming named c) cs := by
  obtain ⟨hoperator, hopen, hclose, hcomma⟩ := unmarked hmark
  simp only [spaced, hoperator, hopen, hclose, hcomma, hblank, Bool.false_eq_true, if_false, naming]

theorem exists_placed (last : Char) (named : Bool) (h : isBlank c = false) :
    ∃ lead trail last' named', Placed last c lead trail last' ∧
      ∀ cs, spaced last named (c :: cs) = lead ++ c :: (trail ++ spaced last' named' cs) := by
  cases hmark : Lexeme.isMark c with
  | false =>
    refine ⟨if last == ')' then [' '] else [], [], c, naming named c, ⟨?_, .inl rfl, ?_⟩, ?_⟩
    · split_ifs with hlast
      · exact .inr ⟨rfl, .inr (beq_iff_eq.mp hlast)⟩
      · exact .inl rfl
    · exact fun hclose => ⟨hclose, rfl⟩
    · intro cs
      rw [spaced_plain hmark h]
      split_ifs <;> rfl
  | true =>
    rcases mark_cases hmark with ho | rfl | rfl | rfl
    · refine ⟨if sticks last then [' '] else [], [' '], ' ', named,
        ⟨?_, .inr ⟨rfl, hmark⟩, nofun⟩, ?_⟩
      · split_ifs
        · exact .inr ⟨rfl, .inl hmark⟩
        · exact .inl rfl
      · intro cs
        rw [spaced_operator ho]
        split_ifs <;> rfl
    · refine ⟨if !named && sticks last then [' '] else [], [], '(', false,
        ⟨?_, .inl rfl, nofun⟩, ?_⟩
      · split_ifs
        · exact .inr ⟨rfl, .inl hmark⟩
        · exact .inl rfl
      · intro cs
        rw [spaced_open]
        split_ifs <;> rfl
    · exact ⟨[], [], ')', named, ⟨.inl rfl, .inl rfl, fun _ => ⟨rfl, rfl⟩⟩, fun _ => rfl⟩
    · exact ⟨[], [' '], ',', named, ⟨.inl rfl, .inr ⟨rfl, hmark⟩, nofun⟩, fun _ => rfl⟩

/-! ## All characters -/

theorem visible_spaced (last : Char) (named : Bool) (cs : List Char) :
    visible (spaced last named cs) = visible cs := by
  induction cs generalizing last named with
  | nil => rfl
  | cons c cs ih =>
    cases hc : isBlank c with
    | true => rw [spaced_blank hc, ih, visible_cons_of_blank hc]
    | false =>
      obtain ⟨lead, trail, last', named', hplaced, hspaced⟩ := exists_placed last named hc
      have hlead : visible lead = [] := by
        rcases hplaced.before with rfl | ⟨rfl, -⟩ <;> rfl
      have htrail : visible trail = [] := by
        rcases hplaced.behind with rfl | ⟨rfl, -⟩ <;> rfl
      rw [hspaced, visible_append, visible_cons_of_visible hc, visible_append, hlead, htrail, ih,
        visible_cons_of_visible hc]
      rfl

theorem spaced_visible (last : Char) (named : Bool) (cs : List Char) :
    spaced last named (visible cs) = spaced last named cs := by
  induction cs generalizing last named with
  | nil => rfl
  | cons c cs ih =>
    cases hc : isBlank c with
    | true => rw [spaced_blank hc, visible_cons_of_blank hc, ih]
    | false =>
      obtain ⟨lead, trail, last', named', -, hspaced⟩ := exists_placed last named hc
      rw [visible_cons_of_visible hc, hspaced, hspaced, ih]

theorem visible_format (cs : List Char) : visible (format cs) = visible cs := by
  rw [format, (squeezed_unwords _).visible_eq, visible_spaced]

theorem neat_format (cs : List Char) : Neat (format cs) := (squeezed_unwords _).neat.1 rfl

theorem format_visible (cs : List Char) : format (visible cs) = format cs := by
  rw [format, spaced_visible, format]

/-- The echo shows every visible character. -/
theorem mem_format (hc : c ∈ cs) (hvisible : isBlank c = false) : c ∈ format cs := by
  have hmem : c ∈ visible (format cs) := by
    rw [visible_format]
    exact mem_visible.mpr ⟨hc, hvisible⟩
  exact (mem_visible.mp hmem).1

/-! ## Runs -/

theorem spaced_run (hds : ∀ c ∈ ds, isBlank c = false ∧ Lexeme.isMark c = false)
    (hlast : last ≠ ')') :
    spaced last named (ds ++ cs) = ds ++ spaced (ds.getLastD last) (ds.foldl naming named) cs := by
  induction ds generalizing last named with
  | nil => rfl
  | cons d ds ih =>
    obtain ⟨hblank, hmark⟩ := hds d List.mem_cons_self
    have hd : d ≠ ')' := ne_of_beq_false (unmarked hmark).2.2.1
    rw [List.cons_append, spaced_plain hmark hblank, if_neg (by simpa using hlast),
      ih (fun c hc => hds c (List.mem_cons_of_mem d hc)) hd, List.getLastD_cons]
    rfl

theorem naming_digits (hds : ∀ c ∈ ds, isLiteralChar c = true) : ds.foldl naming false = false := by
  induction ds with
  | nil => rfl
  | cons d ds ih =>
    have halpha := (classes_of_isLiteralChar (hds d List.mem_cons_self)).2.2
    rw [List.foldl_cons, naming, halpha]
    exact ih fun c hc => hds c (List.mem_cons_of_mem d hc)

theorem setOff_symbol (op : Operator) : setOff op.symbol = [' ', op.symbol, ' '] := by
  cases op <;> rfl

theorem flatMap_setOff (hds : ∀ c ∈ ds, Lexeme.isMark c = false) : ds.flatMap setOff = ds := by
  have hsingle (c : Char) (hc : c ∈ ds) : setOff c = [c] := by
    rw [setOff, isSome_ofSymbol?, (unmarked (hds c hc)).1]
    rfl
  rw [List.flatMap_congr hsingle, List.flatMap_singleton']

theorem sticks_of_isLiteralChar (h : isLiteralChar c = true) : sticks c = true :=
  of_ascii (p := fun c => isLiteralChar c = true → sticks c = true) (by decide)
    (ascii_of_isLiteralChar h) h

theorem isLiteralChar_getLastD (last : Char) (hne : ds ≠ [])
    (hds : ∀ c ∈ ds, isLiteralChar c = true) : isLiteralChar (ds.getLastD last) = true := by
  cases ds with
  | nil => exact absurd rfl hne
  | cons d ds =>
    rw [List.getLastD_cons]
    exact hds _ List.getLastD_mem_cons

theorem plain_name (f : Function) : ∀ c ∈ f.name, isBlank c = false ∧ Lexeme.isMark c = false := by
  have halpha : ∀ c ∈ f.name, c.isAlpha = true := by
    cases f <;> simp [Function.name]
  intro c hc
  exact classes_of_isAlphanum (by simp [Char.isAlphanum, halpha c hc])

theorem naming_name (f : Function) : f.name.foldl naming false = true := by
  cases f <;> rfl

end Echo

/-! ## Accepted lines -/

inductive Outline.Completes : Outline → List Char → Prop
  | done : Completes (.operated 0) []
  | number {n : Nat} {ds cs : List Char} (hne : ds ≠ [])
      (hds : ∀ c ∈ ds, isLiteralChar c = true) (h : Completes (.operated n) cs) :
      Completes (.operand n) (ds ++ cs)
  | name {n : Nat} (f : Function) {cs : List Char} (h : Completes (.argument n) cs) :
      Completes (.operand n) (f.name ++ cs)
  | group {n : Nat} {cs : List Char} (h : Completes (.operand (n + 1)) cs) :
      Completes (.operand n) ('(' :: cs)
  | argument {n : Nat} {cs : List Char} (h : Completes (.operand (n + 1)) cs) :
      Completes (.argument n) ('(' :: cs)
  | operator {n : Nat} (op : Operator) {cs : List Char} (h : Completes (.operand n) cs) :
      Completes (.operated n) (op.symbol :: cs)
  | close {n : Nat} {cs : List Char} (h : Completes (.operated n) cs) :
      Completes (.operated (n + 1)) (')' :: cs)

namespace Outline

theorem Completes.cons {o o' : Outline} {l : Lexeme} {t : Token} {cs : List Char}
    (h : o'.Completes cs) (hl : l.Spells t) (haccepted : l.Accepted) (hn : o.next? t = some o') :
    o.Completes (l.text ++ cs) := by
  cases advances hn with
  | number n x =>
    cases hl with
    | number hx =>
      cases haccepted with
      | number hall hdigit _ =>
        exact .number (List.ne_nil_of_mem hdigit.choose_spec.1)
          (fun c hc => Lexeme.isLiteralChar_iff.mpr (hall c hc)) h
  | name n f =>
    cases hl
    exact .name f h
  | group n =>
    cases hl
    exact .group h
  | call n =>
    cases hl
    exact .argument h
  | operator n op =>
    cases hl
    exact .operator op h
  | close n =>
    cases hl
    exact .close h
  | eof => cases hl

theorem completes_of_follow {ls : List Lexeme} {us : List Token}
    (h : List.Forall₂ Lexeme.Spells ls us) (hls : ∀ l ∈ ls, l.Accepted) {o : Outline}
    (hf : o.follow us = some (.operated 0)) :
    o.Completes (ls.flatMap Lexeme.text) := by
  induction h generalizing o with
  | nil =>
    cases hf
    exact .done
  | @cons l t ls us hl _ ih =>
    rw [follow_cons] at hf
    obtain ⟨o', hn, hf⟩ := Option.bind_eq_some_iff.mp hf
    have hrest := ih (fun k hk => hls k (List.mem_cons_of_mem l hk)) hf
    rw [List.flatMap_cons]
    exact hrest.cons hl (hls l List.mem_cons_self) hn

end Outline

/-- A line that has a value consists of an expression and the end. -/
theorem follow_of_evaluate {config : Config} {cs : List Char} {v : Float}
    (h : (config.evaluate cs).result = .ok v) :
    ∃ us, tokenize cs = .ok (us ++ [.eof]) ∧
      List.Forall₂ Lexeme.Spells ((Lexeme.cut cs).filter (!·.isBlank)) us ∧
      (Outline.operand 0).follow us = some (.operated 0) := by
  cases htokens : tokenize cs with
  | error e =>
    rw [evaluate_eq_of_error htokens] at h
    cases h
  | ok ts =>
    have hcut := cutting_of_tokenize htokens
    obtain ⟨us, hus⟩ := exists_spelled hcut.accepted
    rw [tokenize_of_cutting hcut hus] at htokens
    cases htokens
    have heof : ∀ u ∈ us, u ≠ .eof := by
      rintro _ hu rfl
      obtain ⟨l, hl⟩ := exists_spells_of_mem hus hu
      cases hl
    rw [evaluate_eq_of_ok (tokenize_of_cutting hcut hus)] at h
    obtain ⟨e, he⟩ := exists_phrase config.elementary config.maxDepth h
    rw [beforeEnd_append heof, beforeEnd_of_end rfl, List.append_nil] at he
    exact ⟨us, rfl, hus, he ▸ Outline.follow_tokens e 0⟩

theorem Lexeme.Accepted.visible_text {l : Lexeme} (hl : l.Accepted) :
    visible l.text = if l.isBlank then [] else l.text := by
  cases hl with
  | blank hc => exact visible_cons_of_blank hc
  | mark hc => exact visible_cons_of_visible (isBlank_of_isMark (isMark_iff.mpr hc))
  | number hall =>
    refine visible_eq_self fun c hc => ?_
    exact (classes_of_isLiteralChar (isLiteralChar_iff.mpr (hall c hc))).1
  | @name c cs hc hcs =>
    refine visible_eq_self fun d hd => ?_
    rcases List.mem_cons.mp hd with rfl | hd
    · exact (classes_of_isAlphanum (by simp [Char.isAlphanum, hc])).1
    · exact (classes_of_isAlphanum (hcs d hd)).1

/-- The visible characters are those of the pieces that are not blank. -/
theorem Cutting.visible_eq {ls : List Lexeme} {cs : List Char} (h : Cutting ls cs) :
    visible cs = (ls.filter (!·.isBlank)).flatMap Lexeme.text := by
  induction h with
  | nil => rfl
  | @cons l ls cs hl _ _ ih =>
    rw [visible_append, hl.visible_text, ih]
    cases hblank : l.isBlank with
    | true => simp [hblank]
    | false => simp [hblank]

theorem completes_of_evaluate {config : Config} {cs : List Char} {v : Float}
    (h : (config.evaluate cs).result = .ok v) : (Outline.operand 0).Completes (visible cs) := by
  obtain ⟨us, htokens, hus, hfollow⟩ := follow_of_evaluate h
  have hcut := cutting_of_tokenize htokens
  have haccepted : ∀ l ∈ (Lexeme.cut cs).filter (!·.isBlank), l.Accepted := fun l hl =>
    hcut.accepted l (List.mem_filter.mp hl).1
  rw [hcut.visible_eq]
  exact Outline.completes_of_follow hus haccepted hfollow

namespace Outline

def Remembers : Outline → Char → Bool → Prop
  | .operand _, last, named => Echo.sticks last = false ∧ named = false
  | .argument _, _, named => named = true
  | .operated _, last, named => Echo.sticks last = true ∧ named = false
  | .ended, _, _ => False

def Behind : Outline → Char → Prop
  | .operated _, d => d ≠ ' ' ∧ d ≠ '(' ∧ d.isAlpha = false
  | _, _ => True

def Follows (d c : Char) : Prop :=
  (d = ' ' → c ≠ ' ' ∧ c ≠ ')') ∧ (c = ' ' → d ≠ '(' ∧ d.isAlpha = false)

theorem follows_of {d c : Char} (hspace : c ≠ ' ') (hclose : c ≠ ')') : Follows d c :=
  ⟨fun _ => ⟨hspace, hclose⟩, fun h => absurd h hspace⟩

theorem chain_run {ds rest : List Char} {d : Char}
    (hds : ∀ c ∈ ds, isBlank c = false ∧ Lexeme.isMark c = false)
    (h : (ds.getLastD d :: rest).IsChain Follows) : (d :: (ds ++ rest)).IsChain Follows := by
  induction ds generalizing d with
  | nil => exact h
  | cons c ds ih =>
    rw [List.getLastD_cons] at h
    obtain ⟨hblank, hmark⟩ := hds c List.mem_cons_self
    have hclose := ne_of_beq_false (Echo.unmarked hmark).2.2.1
    have hrest := ih (fun b hb => hds b (List.mem_cons_of_mem c hb)) h
    exact List.isChain_cons_cons.mpr ⟨follows_of (ne_space hblank) hclose, hrest⟩

namespace Completes
variable {o : Outline} {cs : List Char}

theorem spaced_eq (h : o.Completes cs) {last : Char} {named : Bool} (hm : o.Remembers last named) :
    Echo.spaced last named cs = cs.flatMap Echo.setOff := by
  have hclose {last : Char} (hlast : Echo.sticks last = false) : last ≠ ')' := by
    rintro rfl
    cases hlast
  induction h generalizing last named with
  | done => rfl
  | @number n ds cs hne hds _ ih =>
    obtain ⟨hlast, rfl⟩ := hm
    have hclasses (c : Char) (hc : c ∈ ds) := classes_of_isLiteralChar (hds c hc)
    have hsticks : Echo.sticks (ds.getLastD last) = true :=
      Echo.sticks_of_isLiteralChar (Echo.isLiteralChar_getLastD last hne hds)
    rw [Echo.spaced_run (fun c hc => ⟨(hclasses c hc).1, (hclasses c hc).2.1⟩) (hclose hlast),
      Echo.naming_digits hds, ih ⟨hsticks, rfl⟩, List.flatMap_append,
      Echo.flatMap_setOff fun c hc => (hclasses c hc).2.1]
  | name f _ ih =>
    obtain ⟨hlast, rfl⟩ := hm
    have hplain := Echo.plain_name f
    rw [Echo.spaced_run hplain (hclose hlast), Echo.naming_name, ih rfl, List.flatMap_append,
      Echo.flatMap_setOff fun c hc => (hplain c hc).2]
  | group _ ih =>
    obtain ⟨hlast, rfl⟩ := hm
    rw [Echo.spaced_open, hlast, ih ⟨rfl, rfl⟩]
    rfl
  | argument _ ih =>
    obtain rfl := hm
    rw [Echo.spaced_open, ih ⟨rfl, rfl⟩]
    rfl
  | operator op _ ih =>
    obtain ⟨hlast, rfl⟩ := hm
    have hoperator : Echo.isOperator op.symbol = true := by
      cases op <;> rfl
    rw [Echo.spaced_operator hoperator, hlast, ih ⟨rfl, rfl⟩, List.flatMap_cons, Echo.setOff_symbol]
    rfl
  | close _ ih =>
    obtain ⟨hlast, rfl⟩ := hm
    exact congrArg (')' :: ·) (ih ⟨rfl, rfl⟩)

/-- Between an end and a beginning that are put around the echo, no space is next to another one,
inside a parenthesis or behind a name. -/
theorem chain (h : o.Completes cs) {d : Char} (hd : o.Behind d) :
    (d :: (cs.flatMap Echo.setOff ++ [')'])).IsChain Follows := by
  induction h generalizing d with
  | done =>
    refine List.isChain_pair.mpr ⟨fun hspace => absurd hspace hd.1, nofun⟩
  | @number n ds cs hne hds _ ih =>
    have hclasses (c : Char) (hc : c ∈ ds) := classes_of_isLiteralChar (hds c hc)
    obtain ⟨hblank, hmark, halpha⟩ :=
      classes_of_isLiteralChar (Echo.isLiteralChar_getLastD d hne hds)
    rw [List.flatMap_append, Echo.flatMap_setOff fun c hc => (hclasses c hc).2.1, List.append_assoc]
    refine chain_run (fun c hc => ⟨(hclasses c hc).1, (hclasses c hc).2.1⟩) (ih ⟨?_, ?_, halpha⟩)
    · exact ne_space hblank
    · exact ne_of_beq_false (Echo.unmarked hmark).2.1
  | name f _ ih =>
    have hplain := Echo.plain_name f
    rw [List.flatMap_append, Echo.flatMap_setOff fun c hc => (hplain c hc).2, List.append_assoc]
    exact chain_run hplain (ih trivial)
  | group _ ih => exact List.isChain_cons_cons.mpr ⟨follows_of (by decide) (by decide), ih trivial⟩
  | argument _ ih =>
    exact List.isChain_cons_cons.mpr ⟨follows_of (by decide) (by decide), ih trivial⟩
  | operator op _ ih =>
    have hspace : Follows d ' ' := ⟨fun h => absurd h hd.1, fun _ => hd.2⟩
    have hsymbol : Follows ' ' op.symbol ∧ Follows op.symbol ' ' := by
      cases op <;> simp [Follows, Operator.symbol]
    rw [List.flatMap_cons, Echo.setOff_symbol]
    exact List.isChain_cons_cons.mpr ⟨hspace, List.isChain_cons_cons.mpr ⟨hsymbol.1,
      List.isChain_cons_cons.mpr ⟨hsymbol.2, ih trivial⟩⟩⟩
  | close _ ih =>
    have hclose : Follows d ')' := ⟨fun h => absurd h hd.1, nofun⟩
    exact List.isChain_cons_cons.mpr ⟨hclose, ih (by simp [Behind])⟩

end Completes

end Outline

namespace Echo
variable {cs : List Char}

theorem not_adjacent {d c : Char} (h : cs.IsChain Outline.Follows) (hdc : ¬ Outline.Follows d c) :
    ¬ [d, c] <:+: cs := by
  intro hpair
  have hchain := List.IsChain.infix h hpair
  exact hdc (List.isChain_pair.mp hchain)

theorem blank_setOff {c : Char} (hc : c ∈ (visible cs).flatMap setOff) (hblank : isBlank c = true) :
    c = ' ' := by
  obtain ⟨d, hd, hc⟩ := List.mem_flatMap.mp hc
  have hne : c ≠ d := by
    rintro rfl
    rw [(mem_visible.mp hd).2] at hblank
    cases hblank
  unfold setOff at hc
  split_ifs at hc
  · simpa [hne] using hc
  · exact absurd (List.mem_singleton.mp hc) hne

theorem neat_setOff (h : (Outline.operand 0).Completes (visible cs)) :
    Neat ((visible cs).flatMap setOff) := by
  have hchain := h.chain (d := '(') trivial
  refine ⟨fun c hc hblank => blank_setOff hc hblank, ?_, ?_, fun hdoubled => ?_⟩
  · rintro c hc rfl
    obtain ⟨rest, hrest⟩ := List.head?_eq_some_iff.mp hc
    rw [hrest] at hchain
    have hfirst : ¬ Outline.Follows '(' ' ' := by simp [Outline.Follows]
    exact not_adjacent hchain hfirst ⟨[], rest ++ [')'], rfl⟩
  · rintro c hc rfl
    obtain ⟨front, hfront⟩ := List.getLast?_eq_some_iff.mp hc
    rw [hfront, List.append_assoc] at hchain
    have hlast : ¬ Outline.Follows ' ' ')' := by simp [Outline.Follows]
    exact not_adjacent hchain hlast ⟨'(' :: front, [], by simp⟩
  · exact not_adjacent hchain.tail.left_of_append (by simp [Outline.Follows]) hdoubled

theorem format_eq_setOff (h : (Outline.operand 0).Completes (visible cs)) :
    format cs = (visible cs).flatMap setOff := by
  have hspaced : spaced '\x00' false cs = (visible cs).flatMap setOff := by
    rw [← spaced_visible, h.spaced_eq ⟨rfl, rfl⟩]
  rw [format, hspaced]
  exact (squeezed_unwords _).eq_of_neat.1 rfl (neat_setOff h)

/-- The echo is a canonical form.  It depends on the visible characters only and keeps them in
order, it is made of words with single spaces between them, and to echo it again changes nothing.
The spaces in the echo of a line that has a value are those around its operators; there are none
inside a parenthesis or between a name and its parenthesis. -/
theorem format_canonical :
    (∀ cs ds, visible cs = visible ds → format cs = format ds) ∧
    (∀ cs, visible (format cs) = visible cs ∧ Neat (format cs) ∧ format (format cs) = format cs) ∧
    ∀ (config : Config) (cs : List Char) (v : Float), (config.evaluate cs).result = .ok v →
      format cs = (visible cs).flatMap setOff ∧
        ¬ ['(', ' '] <:+: format cs ∧ ¬ [' ', ')'] <:+: format cs ∧
        ∀ f : Function, ¬ f.name ++ [' ', '('] <:+: format cs := by
  have hvisible (cs ds : List Char) (h : visible cs = visible ds) : format cs = format ds := by
    rw [← format_visible, h, format_visible]
  refine ⟨hvisible, fun cs => ?_, fun config cs v h => ?_⟩
  · exact ⟨visible_format cs, neat_format cs, hvisible _ _ (visible_format cs)⟩
  have hcompletes := completes_of_evaluate h
  have hformat := format_eq_setOff hcompletes
  have hchain : (format cs).IsChain Outline.Follows := by
    rw [hformat]
    exact (hcompletes.chain (d := '(') trivial).tail.left_of_append
  refine ⟨hformat, not_adjacent hchain ?_, not_adjacent hchain ?_, fun f => ?_⟩
  · simp [Outline.Follows]
  · simp [Outline.Follows]
  · obtain ⟨front, c, hname, halpha⟩ : ∃ front c, f.name = front ++ [c] ∧ c.isAlpha = true := by
      cases f
      · exact ⟨['s', 'i'], 'n', rfl, rfl⟩
      · exact ⟨['c', 'o'], 's', rfl, rfl⟩
      · exact ⟨['t', 'a'], 'n', rfl, rfl⟩
    have hbefore : ¬ [c, ' '] <:+: format cs :=
      not_adjacent hchain (by simp [Outline.Follows, halpha])
    intro hpair
    refine hbefore (List.IsInfix.trans ⟨front, ['('], ?_⟩ hpair)
    simp [hname]

end Echo

end Calculator
