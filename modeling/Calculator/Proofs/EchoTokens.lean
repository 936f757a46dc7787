import Calculator.Proofs.Echo
import Calculator.Proofs.Joining

/-! # Reading an echo

The echo of a line is read as the line without its blanks.  So it has the tokens of the line exactly
if no two of them need a blank between them, and this is the case in every line that has a value.
-/
namespace Calculator
open Text

/-! ## Blanks of the echo -/

theorem respaced_of_parted {a gap gap' b : List Char}
    (h : (∀ c ∈ a.getLast?, Separates c) ∨ ∀ c ∈ b.head?, Separates c)
    (hgap : ∀ c ∈ gap, isBlank c = true) (hgap' : ∀ c ∈ gap', isBlank c = true) :
    Respaced (a ++ gap ++ b) (a ++ gap' ++ b) :=
  .gap ⟨hgap, fun _ => h⟩ ⟨hgap', fun _ => h⟩

theorem blank_nil : ∀ c ∈ ([] : List Char), isBlank c = true := nofun

theorem blank_single {c : Char} (hc : isBlank c = true) : ∀ d ∈ [c], isBlank d = true := by
  rintro d hd
  rwa [List.mem_singleton.mp hd]

theorem getLast_separates {a : List Char} {c : Char} (hc : Separates c) :
    ∀ d ∈ (a ++ [c]).getLast?, Separates d := by
  rw [List.getLast?_concat]
  rintro _ ⟨⟩
  exact hc

theorem separates_of_isMark {c : Char} (h : Lexeme.isMark c = true) : Separates c :=
  .inr (Lexeme.isMark_iff.mp h)

/-- Only next to operators, parentheses and commas is a space put into the echo. -/
theorem Echo.Placed.respaced {last c last' : Char} {lead trail a : List Char}
    (h : Placed last c lead trail last') (rest : List Char)
    (ha : last = ')' → ∀ d ∈ a.getLast?, Separates d) :
    Relation.ReflTransGen Respaced (a ++ c :: rest) (a ++ lead ++ c :: (trail ++ rest)) := by
  have hlead : Relation.ReflTransGen Respaced (a ++ c :: rest) (a ++ lead ++ c :: rest) := by
    rcases h.before with rfl | ⟨rfl, hmark⟩
    · rw [List.append_nil]
    · have hparted : (∀ d ∈ a.getLast?, Separates d) ∨ ∀ d ∈ (c :: rest).head?, Separates d := by
        rcases hmark with hmark | hlast
        · exact .inr (by rintro _ ⟨⟩; exact separates_of_isMark hmark)
        · exact .inl (ha hlast)
      have h := respaced_of_parted hparted blank_nil (blank_single isBlank_space)
      rw [List.append_nil] at h
      exact .single h
  have htrail : Relation.ReflTransGen Respaced (a ++ lead ++ c :: rest)
      (a ++ lead ++ c :: (trail ++ rest)) := by
    rcases h.behind with rfl | ⟨rfl, hmark⟩
    · exact .refl
    · have hparted := getLast_separates (a := a ++ lead) (separates_of_isMark hmark)
      have h := respaced_of_parted (b := rest) (.inl hparted) blank_nil (blank_single isBlank_space)
      simp only [List.append_assoc, List.cons_append, List.nil_append] at h ⊢
      exact .single h
  exact hlead.trans htrail

theorem Echo.respaced_spaced (last : Char) (named : Bool) (cs : List Char) {a : List Char}
    (ha : last = ')' → ∀ d ∈ a.getLast?, Separates d) :
    Relation.ReflTransGen Respaced (a ++ visible cs) (a ++ spaced last named cs) := by
  induction cs generalizing last named a with
  | nil => exact .refl
  | cons c cs ih =>
    cases hc : isBlank c with
    | true =>
      rw [visible_cons_of_blank hc, spaced_blank hc]
      exact ih last named ha
    | false =>
      obtain ⟨lead, trail, last', named', hplaced, hspaced⟩ := exists_placed last named hc
      have hclose : last' = ')' → ∀ d ∈ (a ++ lead ++ c :: trail).getLast?, Separates d := by
        intro hclose
        obtain ⟨rfl, rfl⟩ := hplaced.close hclose
        exact getLast_separates (separates_of_isMark rfl)
      have hfirst := hplaced.respaced (visible cs) ha
      have hrest := ih last' named' hclose
      rw [visible_cons_of_visible hc, hspaced]
      simp only [List.append_assoc, List.cons_append] at hfirst hrest ⊢
      exact hfirst.trans hrest

theorem Text.Squeezed.respaced {behind : Bool} {cs ds a : List Char} (h : Squeezed behind cs ds)
    (ha : behind = false → ∀ d ∈ a.getLast?, Separates d) :
    Relation.ReflTransGen Respaced (a ++ cs) (a ++ ds) := by
  induction h generalizing a with
  | nil => exact .refl
  | @visible _ c cs ds hc _ ih =>
    have hrest := ih (a := a ++ [c]) nofun
    rwa [List.append_assoc, List.append_assoc] at hrest
  | @skipped c cs ds hc _ ih =>
    have h := respaced_of_parted (b := cs) (.inl (ha rfl)) (blank_single hc) blank_nil
    rw [List.append_nil, List.append_assoc] at h
    exact .head h (ih ha)
  | @space c cs ds hc _ _ ih =>
    have h : Respaced (a ++ [c] ++ cs) (a ++ [' '] ++ cs) :=
      .gap ⟨blank_single hc, nofun⟩ ⟨blank_single isBlank_space, nofun⟩
    have hrest := ih fun _ => getLast_separates (a := a) (.inl isBlank_space)
    rw [List.append_assoc, List.append_assoc] at h
    rw [List.append_assoc, List.append_assoc] at hrest
    exact .head h hrest
  | @ended c cs hc _ ih =>
    have h := respaced_of_parted (a := a) (b := []) (.inr (by simp)) (blank_single hc) blank_nil
    have hrest := ih fun _ => getLast_separates (a := a) (.inl hc)
    rw [List.append_nil, List.append_nil] at h
    rw [List.append_assoc, List.append_nil] at hrest
    exact .tail hrest h

/-- The blanks of a line may be left out where it is echoed anyway. -/
theorem Echo.respaced_format (cs : List Char) :
    Relation.ReflTransGen Respaced (visible cs) (format cs) := by
  have hspaced := respaced_spaced '\x00' false cs (a := []) nofun
  have hsqueezed := (squeezed_unwords (spaced '\x00' false cs)).respaced (a := []) (by simp)
  exact hspaced.trans hsqueezed

/-! ## Pieces without blanks between them -/

namespace Lexeme

/-- Pieces that are cut elsewhere when no blank stands between them. -/
inductive Merges : Lexeme → Lexeme → Prop
  | numbers (cs ds : List Char) : Merges (.digits cs) (.digits ds)
  | names (cs ds : List Char) : Merges (.word cs) (.word ds)
  | nameNumber (cs : List Char) {d : Char} (ds : List Char) (hd : d.isDigit = true) :
      Merges (.word cs) (.digits (d :: ds))

variable {l m : Lexeme} {ls ks : List Lexeme} {cs rest : List Char} {us : List Token}

/-- What continues a run is the beginning of a number or of a name. -/
theorem merges_iff (hm : m.Accepted) (hblank : m.isBlank = false) :
    l.Merges m ↔ ∃ c ∈ m.text.head?, l.ContinuedBy c := by
  constructor
  · intro h
    cases h with
    | numbers cs ds =>
      obtain ⟨d, ds, rfl, hall⟩ := hm.exists_digits
      exact ⟨d, rfl, isLiteralChar_iff.mp (hall d List.mem_cons_self)⟩
    | names cs ds =>
      cases hm with
      | @name c ds hc => exact ⟨c, rfl, by simp [ContinuedBy, Char.isAlphanum, hc]⟩
    | @nameNumber cs d ds hd => exact ⟨d, rfl, by simp [ContinuedBy, Char.isAlphanum, hd]⟩
  · rintro ⟨c, hc, h⟩
    cases hm with
    | blank => cases hblank
    | mark hmark =>
      cases hc
      exact absurd h (not_continuedBy (Separates.endsRuns (.inr hmark)) l)
    | number hall hdigit hdot =>
      obtain ⟨d, ds, rfl, hrun⟩ := Accepted.exists_digits (.number hall hdigit hdot)
      cases hc
      cases l with
      | digits cs => exact .numbers cs _
      | word cs =>
        have hdot : c ≠ '.' := by
          rintro rfl
          cases h
        exact .nameNumber cs ds ((hall c List.mem_cons_self).resolve_right hdot)
      | _ => cases h
    | @name d ds hd =>
      cases hc
      cases l with
      | digits cs =>
        have hliteral := not_isLiteralChar_of_isAlpha hd
        rw [isLiteralChar_iff.mpr h] at hliteral
        cases hliteral
      | word cs => exact .names cs _
      | _ => cases h

theorem head?_flatMap (hm : m.Accepted) : ((m :: ls).flatMap text).head? = m.text.head? := by
  obtain ⟨c, ds, htext⟩ := hm.exists_head
  rw [List.flatMap_cons, htext]
  rfl

theorem uncons_cutting (h : Cutting (l :: ls) cs) :
    ∃ rest, l.text ++ rest = cs ∧ l.Accepted ∧ (∀ c ∈ rest.head?, ¬ l.ContinuedBy c) ∧
      Cutting ls rest := by
  cases h with
  | cons hl hlongest h => exact ⟨_, rfl, hl, hlongest, h⟩

/-- Pieces of which none merges with the next one are cut like this. -/
theorem cutting_of_chain (haccepted : ∀ l ∈ ls, l.Accepted) (hblank : ∀ l ∈ ls, l.isBlank = false)
    (h : ls.IsChain fun l m => ¬ l.Merges m) : Cutting ls (ls.flatMap text) := by
  induction ls with
  | nil => exact .nil
  | cons l ls ih =>
    have hrest := ih (fun k hk => haccepted k (List.mem_cons_of_mem l hk))
      (fun k hk => hblank k (List.mem_cons_of_mem l hk)) h.tail
    rw [List.flatMap_cons]
    refine .cons (haccepted l List.mem_cons_self) (fun c hc hcontinued => ?_) hrest
    cases ls with
    | nil => nomatch hc
    | cons m ms =>
      have hm : m ∈ l :: m :: ms := by simp
      rw [head?_flatMap (haccepted m hm)] at hc
      exact h.rel ((merges_iff (haccepted m hm) (hblank m hm)).mpr ⟨c, hc, hcontinued⟩)

theorem chain_of_cutting (h : Cutting ls cs) (hblank : ∀ l ∈ ls, l.isBlank = false) :
    ls.IsChain fun l m => ¬ l.Merges m := by
  induction h with
  | nil => exact .nil
  | @cons l ls cs hl hlongest h ih =>
    have hrest := ih fun k hk => hblank k (List.mem_cons_of_mem l hk)
    cases ls with
    | nil => exact .singleton l
    | cons m ms =>
      refine List.isChain_cons_cons.mpr ⟨fun hmerges => ?_, hrest⟩
      have hm := h.accepted m List.mem_cons_self
      obtain ⟨c, hc, hcontinued⟩ := (merges_iff hm (hblank m (by simp))).mp hmerges
      refine hlongest c ?_ hcontinued
      rwa [← h.flatten, ← List.flatMap_def, head?_flatMap hm]

/-- A text begins with a digit or a dot exactly if its first token is a number. -/
theorem exists_isLiteralChar_iff (h : List.Forall₂ Spells ls us)
    (haccepted : ∀ l ∈ ls, l.Accepted) :
    (∃ c ∈ (ls.flatMap text).head?, Number.isLiteralChar c = true) ↔
      ∃ x, .number x ∈ us.head? := by
  cases h with
  | nil => simp
  | @cons l t ls us hl _ =>
    have hacc := haccepted l List.mem_cons_self
    rw [head?_flatMap hacc]
    cases hacc with
    | blank => cases hl
    | mark hc =>
      have hliteral := not_isLiteralChar_of_isMark (isMark_iff.mpr hc)
      cases hl <;> simp [text, hliteral]
    | number hall hdigit hdot =>
      obtain ⟨d, ds, rfl, hrun⟩ := Accepted.exists_digits (.number hall hdigit hdot)
      cases hl with
      | @number _ x hx => exact ⟨fun _ => ⟨x, rfl⟩, fun _ => ⟨d, rfl, hrun d List.mem_cons_self⟩⟩
    | @name d ds hd =>
      cases hl with
      | name =>
        constructor
        · rintro ⟨_, ⟨⟩, hliteral⟩
          rw [not_isLiteralChar_of_isAlpha hd] at hliteral
          cases hliteral
        · rintro ⟨x, hx⟩
          cases hx

/-- Pieces with the same token at the start of a text are the same, unless a number goes on behind
one of them. -/
theorem eq_of_spells_same {t : Token} {k : Lexeme} (hl : l.Spells t) (hk : k.Spells t)
    (h : l.text ++ rest = k.text ++ cs)
    (hrest : t.kind = .number → ∀ c ∈ rest.head?, Number.isLiteralChar c = false)
    (hcs : t.kind = .number → ∀ c ∈ cs.head?, Number.isLiteralChar c = false) : l = k := by
  have hall {ds : List Char} {x : Float} (h : Number.read? ds = some x) :
      ∀ c ∈ ds, Number.isLiteralChar c = true := fun c hc =>
    isLiteralChar_iff.mpr ((isLiteral_iff.mp (Number.read?_eq_some_iff.mp h).1).1 c hc)
  cases hl with
  | comma =>
    cases hk
    rfl
  | symbol =>
    cases hk
    rfl
  | name =>
    cases hk
    rfl
  | @number xs x hx =>
    cases hk with
    | @number ys _ hy =>
      have htakeLeft := (run_append (hall hx) (hrest rfl)).1
      have htakeRight := (run_append (hall hy) (hcs rfl)).1
      have htext : xs ++ rest = ys ++ cs := h
      rw [← htakeLeft, htext, htakeRight]

/-- Of the pieces of a text that spell the same tokens, those with longest runs are the only ones.
Only the ends of numbers are in question, and behind a longer number another one would begin. -/
theorem eq_of_spells (hls : List.Forall₂ Spells ls us) (hks : List.Forall₂ Spells ks us)
    (haccepted : ∀ l ∈ ls, l.Accepted) (hcut : Cutting ks (ls.flatMap text)) : ls = ks := by
  induction hls generalizing ks with
  | nil =>
    cases hks
    rfl
  | @cons l t ls us hl hls ih =>
    obtain ⟨k, ks, hk, hspells, rfl⟩ := List.forall₂_cons_right_iff.mp hks
    have hls' : ∀ m ∈ ls, m.Accepted := fun m hm => haccepted m (List.mem_cons_of_mem l hm)
    rw [List.flatMap_cons] at hcut
    obtain ⟨rest, htext, hk', hlongest, hrest⟩ := uncons_cutting hcut
    have hends : t.kind = .number → ∀ c ∈ rest.head?, Number.isLiteralChar c = false := by
      intro ht c hc
      cases hk with
      | number => exact Bool.eq_false_iff.mpr fun h => hlongest c hc (isLiteralChar_iff.mp h)
      | _ => cases ht
    have hsame : (∃ c ∈ (ls.flatMap text).head?, Number.isLiteralChar c = true) ↔
        ∃ c ∈ rest.head?, Number.isLiteralChar c = true := by
      rw [← hrest.flatten, ← List.flatMap_def, exists_isLiteralChar_iff hls hls',
        exists_isLiteralChar_iff hspells hrest.accepted]
    have hends' : t.kind = .number →
        ∀ c ∈ (ls.flatMap text).head?, Number.isLiteralChar c = false := by
      refine fun ht c hc => Bool.eq_false_iff.mpr fun h => ?_
      obtain ⟨d, hd, hliteral⟩ := hsame.mp ⟨c, hc, h⟩
      rw [hends ht d hd] at hliteral
      cases hliteral
    have heq : l = k := eq_of_spells_same hl hk htext.symm hends' hends
    subst heq
    obtain rfl := List.append_cancel_left htext
    rw [ih hspells hls' hrest]

end Lexeme

/-! ## Lines and their echoes -/

open Lexeme

theorem Cutting.isBlank_eq {ls : List Lexeme} {cs : List Char} (h : Cutting ls (visible cs)) :
    ∀ l ∈ ls, l.isBlank = false := by
  intro l hl
  cases h.accepted l hl with
  | @blank c hc =>
    have hmem : c ∈ visible cs := by
      rw [← h.flatten, List.mem_flatten]
      exact ⟨[c], List.mem_map_of_mem hl, List.mem_singleton_self c⟩
    rw [(mem_visible.mp hmem).2] at hc
    cases hc
  | _ => rfl

theorem filter_isBlank {ls : List Lexeme} (h : ∀ l ∈ ls, l.isBlank = false) :
    ls.filter (!·.isBlank) = ls := List.filter_eq_self.mpr fun l hl => by rw [h l hl]; rfl

def Token.IsRun (t : Token) : Prop := t.kind = .number ∨ t.kind = .name

theorem Outline.next?_eq_none {t : Token} (ht : t.IsRun) (n : Nat) :
    (argument n).next? t = none ∧ (operated n).next? t = none := by
  cases t with
  | number x => exact ⟨rfl, rfl⟩
  | name f => exact ⟨rfl, rfl⟩
  | _ => simp [Token.IsRun, Token.kind] at ht

/-- Two numbers or names never follow each other. -/
theorem Outline.next?_of_isRun {o o' : Outline} {t u : Token} (hn : o.next? t = some o')
    (ht : t.IsRun) (hu : u.IsRun) : o'.next? u = none := by
  cases advances hn with
  | number n x => exact (next?_eq_none hu n).2
  | name n f => exact (next?_eq_none hu n).1
  | _ => simp [Token.IsRun, Token.kind] at ht

theorem Lexeme.Merges.isRun {l m : Lexeme} {t u : Token} (h : l.Merges m) (ht : l.Spells t)
    (hu : m.Spells u) : t.IsRun ∧ u.IsRun := by
  cases h with
  | numbers =>
    cases ht
    cases hu
    exact ⟨.inl rfl, .inl rfl⟩
  | names =>
    cases ht
    cases hu
    exact ⟨.inr rfl, .inr rfl⟩
  | nameNumber =>
    cases ht
    cases hu
    exact ⟨.inr rfl, .inl rfl⟩

theorem chain_of_follow {ls : List Lexeme} {us : List Token} {o o' : Outline}
    (h : List.Forall₂ Spells ls us) (hf : o.follow us = some o') :
    ls.IsChain fun l m => ¬ l.Merges m := by
  induction h generalizing o with
  | nil => exact .nil
  | @cons l t ls us ht hrest ih =>
    rw [Outline.follow_cons] at hf
    obtain ⟨o₁, hn, hf⟩ := Option.bind_eq_some_iff.mp hf
    cases hrest with
    | nil => exact .singleton l
    | @cons m u ls us hu hrest =>
      refine List.isChain_cons_cons.mpr ⟨fun hmerges => ?_, ih hf⟩
      obtain ⟨hrun, hrun'⟩ := hmerges.isRun ht hu
      rw [Outline.follow_cons, Outline.next?_of_isRun hn hrun hrun'] at hf
      cases hf

theorem tokenize_format_iff {cs : List Char} {us : List Token}
    (hcut : Cutting (cut cs) cs)
    (hus : List.Forall₂ Spells ((cut cs).filter (!·.isBlank)) us) :
    tokenize (Echo.format cs) = .ok (us ++ [.eof]) ↔
      ((cut cs).filter (!·.isBlank)).IsChain fun l m => ¬ l.Merges m := by
  rw [← tokenize_eq_ok_iff_of_respaced (Echo.respaced_format cs)]
  have haccepted : ∀ l ∈ (cut cs).filter (!·.isBlank), l.Accepted := fun l hl =>
    hcut.accepted l (List.mem_filter.mp hl).1
  have hblank : ∀ l ∈ (cut cs).filter (!·.isBlank), l.isBlank = false := fun l hl => by
    simpa using (List.mem_filter.mp hl).2
  have htext := hcut.visible_eq
  generalize (cut cs).filter (!·.isBlank) = ls at hus haccepted hblank htext ⊢
  constructor
  · intro h
    have hvisible := cutting_of_tokenize h
    have hkept := hvisible.isBlank_eq
    obtain ⟨vs, hvs⟩ := exists_spelled hvisible.accepted
    rw [tokenize_of_cutting hvisible hvs, Except.ok.injEq, List.append_left_inj] at h
    rw [filter_isBlank hkept, h] at hvs
    have heq : ls = cut (visible cs) := eq_of_spells hus hvs haccepted (htext ▸ hvisible)
    rw [heq]
    exact chain_of_cutting hvisible hkept
  · intro h
    have hvisible := cutting_of_chain haccepted hblank h
    rw [htext]
    exact tokenize_of_cutting hvisible (by rwa [filter_isBlank hblank])

/-- The echo of a line that can be read has the tokens of the line exactly if no number follows a
number, no name a name, and no number that begins with a digit a name.  This is so in every line
that has a value, and so its echo has the same value by the same steps. -/
theorem echo_keeps_tokens :
    (∀ cs ts, tokenize cs = .ok ts →
      (tokenize (Echo.format cs) = tokenize cs ↔
        ((cut cs).filter (!·.isBlank)).IsChain fun l m => ¬ l.Merges m)) ∧
    ∀ (config : Config) (cs : List Char) (trace : Trace) (v : Float),
      let before := config.evaluateWith cs trace
      let after := config.evaluateWith (Echo.format cs) trace
      before.1.result = .ok v →
        after.1.result = .ok v ∧ after.1.steps = before.1.steps ∧ after.2 = before.2 := by
  constructor
  · intro cs ts h
    have hcut := cutting_of_tokenize h
    obtain ⟨us, hus⟩ := exists_spelled hcut.accepted
    rw [tokenize_of_cutting hcut hus]
    exact tokenize_format_iff hcut hus
  · intro config cs trace v before after h
    obtain ⟨us, htokens, hus, hfollow⟩ := follow_of_evaluate h
    have hechoed := (tokenize_format_iff (cutting_of_tokenize htokens) hus).mpr
      (chain_of_follow hus hfollow)
    simp only [before, after, Config.evaluateWith] at h ⊢
    rw [evaluate_eq_of_ok htokens] at h ⊢
    rw [evaluate_eq_of_ok hechoed]
    exact ⟨h, rfl, rfl⟩

end Calculator
