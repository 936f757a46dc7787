import Calculator.Proofs.Cutting
import Calculator.Proofs.History

/-! # The keyword

The keyword may stand before the expression or behind it and asks for the same.  It is looked for at
byte offsets, and wherever these fall in a line, no character of it is cut apart.
-/
namespace Calculator

namespace Text
variable {c : Char} {cs ds : List Char}

/-! ## Letter case -/

/-- Only letters of ASCII have two cases. -/
theorem toLower_eq_self (h : ¬ c.toNat < 128) : c.toLower = c := by
  unfold Char.toLower
  split
  · next hupper =>
    have hle : c.toNat ≤ 'Z'.toNat := hupper.2
    exact absurd (Nat.lt_of_le_of_lt hle (by decide)) h
  · rfl

theorem isBlank_toLower (c : Char) : isBlank c.toLower = isBlank c := by
  by_cases h : c.toNat < 128
  · exact of_ascii (p := fun c => isBlank c.toLower = isBlank c) (by decide) h
  · rw [toLower_eq_self h]

theorem utf8Size_toLower (c : Char) : c.toLower.utf8Size = c.utf8Size := by
  by_cases h : c.toNat < 128
  · exact of_ascii (p := fun c => c.toLower.utf8Size = c.utf8Size) (by decide) h
  · rw [toLower_eq_self h]

theorem utf8ByteSize_toLower (cs : List Char) :
    (String.ofList (cs.map Char.toLower)).utf8ByteSize = (String.ofList cs).utf8ByteSize := by
  induction cs with
  | nil => rfl
  | cons c cs ih =>
    rw [List.map_cons, String.ofList_cons, String.ofList_cons, String.utf8ByteSize_append,
      String.utf8ByteSize_append, ih, String.utf8ByteSize_singleton, String.utf8ByteSize_singleton,
      utf8Size_toLower]

theorem utf8ByteSize_of_sameLetters (h : sameLetters cs ds = true) :
    (String.ofList cs).utf8ByteSize = (String.ofList ds).utf8ByteSize := by
  rw [← utf8ByteSize_toLower cs, sameLetters_iff.mp h, utf8ByteSize_toLower]

theorem visible_of_sameLetters (h : sameLetters cs ds = true)
    (hds : ds.all (!isBlank ·) = true) : ∀ c ∈ cs, isBlank c = false := by
  intro c hc
  have hlower : c.toLower ∈ ds.map Char.toLower := by
    rw [← sameLetters_iff.mp h]
    exact List.mem_map_of_mem hc
  obtain ⟨d, hd, hsame⟩ := List.mem_map.mp hlower
  have hvisible := List.all_eq_true.mp hds d hd
  rw [← isBlank_toLower, ← hsame, isBlank_toLower]
  exact Bool.not_eq_true' _ |>.mp hvisible

theorem sameLetters_cons_space_iff :
    sameLetters cs (' ' :: ds) = true ↔ ∃ word, cs = ' ' :: word ∧ sameLetters word ds = true := by
  constructor
  · intro h
    have hhead := head_of_sameLetters_space h
    cases cs with
    | nil => nomatch hhead
    | cons c word =>
      obtain rfl : c = ' ' := Option.some.inj hhead
      exact ⟨word, rfl, sameLetters_iff.mpr (List.cons.inj (sameLetters_iff.mp h)).2⟩
  · rintro ⟨word, rfl, h⟩
    rw [sameLetters_iff, List.map_cons, List.map_cons, sameLetters_iff.mp h]

theorem sameLetters_concat_space_iff :
    sameLetters cs (ds ++ [' ']) = true ↔
      ∃ word, cs = word ++ [' '] ∧ sameLetters word ds = true := by
  constructor
  · intro h
    have hlast := last_of_sameLetters_space h
    obtain ⟨word, rfl⟩ := List.getLast?_eq_some_iff.mp hlast
    rw [sameLetters_iff, List.map_append, List.map_append] at h
    exact ⟨word, rfl, sameLetters_iff.mpr (List.append_cancel_right h)⟩
  · rintro ⟨word, rfl, h⟩
    rw [sameLetters_iff, List.map_append, List.map_append, sameLetters_iff.mp h]

end Text

namespace Request

def Begins (line : List Char) : Prop :=
  ∃ word rest, line = word ++ ' ' :: rest ∧ Text.sameLetters word keyword = true

def Ends (line : List Char) : Prop :=
  ∃ rest word, line = rest ++ ' ' :: word ∧ Text.sameLetters word keyword = true

def byteSize (cs : List Char) : Nat := (String.ofList cs).utf8ByteSize

/-- What a line asks for, with the keyword looked for at byte offsets.  What does not end between
two characters is not the keyword; a part that is taken out of the line has to. -/
def ofLine? (line : List Char) : Option Request :=
  let size := byteSize keyword + 1
  let start? := (byteSize line).psub size
  if Text.sameLetters line keyword then some ⟨true, []⟩
  else if (splitAtByte? line size).any fun (word, _) => Text.sameLetters word (keyword ++ [' '])
  then do
    let (_, rest) ← splitAtByte? line size
    some ⟨true, Text.trim rest⟩
  else if (start?.bind (splitAtByte? line)).any fun (_, word) =>
    Text.sameLetters word (' ' :: keyword)
  then do
    let start ← start?
    let (rest, _) ← splitAtByte? line start
    some ⟨true, Text.trim rest⟩
  else some ⟨false, line⟩

variable {line word rest : List Char}

theorem begins_iff :
    Text.sameLetters (line.take (keyword.length + 1)) (keyword ++ [' ']) = true ↔ Begins line := by
  rw [Text.sameLetters_concat_space_iff]
  constructor
  · rintro ⟨word, hword, hkeyword⟩
    refine ⟨word, line.drop (keyword.length + 1), ?_, hkeyword⟩
    rw [← List.singleton_append, ← List.append_assoc, ← hword, List.take_append_drop]
  · rintro ⟨word, rest, rfl, hkeyword⟩
    refine ⟨word, ?_, hkeyword⟩
    rw [← Text.length_eq_of_sameLetters hkeyword, List.take_length_add_append]
    rfl

theorem ends_iff :
    Text.sameLetters (line.drop (line.length - (keyword.length + 1))) (' ' :: keyword) = true ↔
      Ends line := by
  rw [Text.sameLetters_cons_space_iff]
  constructor
  · rintro ⟨word, hword, hkeyword⟩
    refine ⟨line.take (line.length - (keyword.length + 1)), word, ?_, hkeyword⟩
    rw [← hword, List.take_append_drop]
  · rintro ⟨rest, word, rfl, hkeyword⟩
    refine ⟨word, ?_, hkeyword⟩
    rw [← Text.length_eq_of_sameLetters hkeyword, List.length_append, List.length_cons,
      Nat.add_sub_cancel, List.drop_left]

/-! ## The four forms of a line -/

theorem visible_keyword (h : Text.sameLetters word keyword = true) :
    ∀ c ∈ word, Text.isBlank c = false :=
  Text.visible_of_sameLetters h (by decide)

theorem sameLetters_of_space (h : ' ' ∈ line) : Text.sameLetters line keyword = false := by
  by_contra hkeyword
  nomatch visible_keyword (Bool.eq_true_of_not_eq_false hkeyword) ' ' h

theorem ofLine_before (h : Text.sameLetters word keyword = true) (rest : List Char) :
    ofLine (word ++ ' ' :: rest) = ⟨true, Text.trim rest⟩ := by
  have halone : Text.sameLetters (word ++ ' ' :: rest) keyword = false :=
    sameLetters_of_space (by simp)
  have hbegins := begins_iff.mpr ⟨word, rest, rfl, h⟩
  have hdrop : (word ++ ' ' :: rest).drop (keyword.length + 1) = rest := by
    rw [← Text.length_eq_of_sameLetters h, List.drop_length_add_append]
    rfl
  simp only [ofLine, halone, hbegins, hdrop, if_true, Bool.false_eq_true, if_false]

theorem ofLine_behind (h : Text.sameLetters word keyword = true)
    (hbegins : ¬ Begins (rest ++ ' ' :: word)) :
    ofLine (rest ++ ' ' :: word) = ⟨true, Text.trim rest⟩ := by
  have halone : Text.sameLetters (rest ++ ' ' :: word) keyword = false :=
    sameLetters_of_space (by simp)
  have hends := ends_iff.mpr ⟨rest, word, rfl, h⟩
  have htake : (rest ++ ' ' :: word).take
      ((rest ++ ' ' :: word).length - (keyword.length + 1)) = rest := by
    rw [← Text.length_eq_of_sameLetters h, List.length_append, List.length_cons,
      Nat.add_sub_cancel, List.take_left]
  rw [← begins_iff] at hbegins
  simp only [ofLine, halone, hbegins, hends, htake, if_true, Bool.false_eq_true, if_false]

theorem ofLine_plain (halone : Text.sameLetters line keyword = false) (hbegins : ¬ Begins line)
    (hends : ¬ Ends line) : ofLine line = ⟨false, line⟩ := by
  rw [← begins_iff] at hbegins
  rw [← ends_iff] at hends
  simp only [ofLine, halone, hbegins, hends, Bool.false_eq_true, if_false]

/-- A keyword behind a text is not taken for one before it. -/
theorem not_begins_append (halone : Text.sameLetters rest keyword = false)
    (hbegins : ¬ Begins rest) (word : List Char) : ¬ Begins (rest ++ ' ' :: word) := by
  rintro ⟨first, others, hline, hkeyword⟩
  rcases List.append_eq_append_iff.mp hline with ⟨gap, rfl, hgap⟩ | ⟨gap, rfl, hgap⟩
  · -- the text ends inside the first word, which has no space
    cases gap with
    | nil =>
      rw [List.append_nil, halone] at hkeyword
      cases hkeyword
    | cons c gap =>
      obtain rfl : ' ' = c := (List.cons.inj hgap).1
      nomatch visible_keyword hkeyword ' ' (by simp)
  · -- the first word ends inside the text
    cases gap with
    | nil =>
      rw [List.append_nil, hkeyword] at halone
      cases halone
    | cons c gap =>
      obtain rfl : ' ' = c := (List.cons.inj hgap).1
      exact hbegins ⟨first, gap, rfl, hkeyword⟩

/-! ## No character is cut apart -/

theorem byteSize_append (cs ds : List Char) : byteSize (cs ++ ds) = byteSize cs + byteSize ds := by
  rw [byteSize, String.ofList_append, String.utf8ByteSize_append]
  rfl

theorem byteSize_of_sameLetters (h : Text.sameLetters word keyword = true) :
    byteSize (word ++ [' ']) = byteSize keyword + 1 ∧
      byteSize (' ' :: word) = byteSize keyword + 1 := by
  have hword : byteSize word = byteSize keyword := Text.utf8ByteSize_of_sameLetters h
  have hspace : byteSize [' '] = 1 := rfl
  have hcons : byteSize (' ' :: word) = byteSize [' '] + byteSize word := byteSize_append [' '] word
  rw [hcons, byteSize_append, hword, hspace]
  exact ⟨rfl, Nat.add_comm _ _⟩

theorem splitAtByte?_before (h : Text.sameLetters word keyword = true) (rest : List Char) :
    splitAtByte? (word ++ ' ' :: rest) (byteSize keyword + 1) = some (word ++ [' '], rest) := by
  rw [← (byteSize_of_sameLetters h).1, ← List.singleton_append, ← List.append_assoc]
  exact splitAtByte?_append _ _

theorem psub_behind (h : Text.sameLetters word keyword = true) (rest : List Char) :
    (byteSize (rest ++ ' ' :: word)).psub (byteSize keyword + 1) = some (byteSize rest) := by
  rw [← (byteSize_of_sameLetters h).2, byteSize_append, psub_of_le (Nat.le_add_left _ _),
    Nat.add_sub_cancel]

theorem splitAtByte?_behind (h : Text.sameLetters word keyword = true) (rest : List Char) :
    ((byteSize (rest ++ ' ' :: word)).psub (byteSize keyword + 1)).bind
      (splitAtByte? (rest ++ ' ' :: word)) = some (rest, ' ' :: word) := by
  rw [psub_behind h, Option.bind_some]
  exact splitAtByte?_append _ _

theorem any_before_iff :
    ((splitAtByte? line (byteSize keyword + 1)).any fun (word, _) =>
      Text.sameLetters word (keyword ++ [' '])) = true ↔ Begins line := by
  constructor
  · intro h
    obtain ⟨⟨before, rest⟩, hsplit, hword⟩ := (Option.any_eq_true _ _).mp h
    obtain ⟨word, rfl, hkeyword⟩ := Text.sameLetters_concat_space_iff.mp hword
    exact ⟨word, rest, by rw [(splitAtByte?_eq_some hsplit).1]; simp, hkeyword⟩
  · rintro ⟨word, rest, rfl, h⟩
    rw [splitAtByte?_before h]
    exact Text.sameLetters_concat_space_iff.mpr ⟨word, rfl, h⟩

theorem any_behind_iff :
    ((((byteSize line).psub (byteSize keyword + 1)).bind (splitAtByte? line)).any fun (_, word) =>
      Text.sameLetters word (' ' :: keyword)) = true ↔ Ends line := by
  constructor
  · intro h
    obtain ⟨⟨rest, behind⟩, hbind, hword⟩ := (Option.any_eq_true _ _).mp h
    obtain ⟨start, -, hsplit⟩ := Option.bind_eq_some_iff.mp hbind
    obtain ⟨word, rfl, hkeyword⟩ := Text.sameLetters_cons_space_iff.mp hword
    exact ⟨rest, word, (splitAtByte?_eq_some hsplit).1, hkeyword⟩
  · rintro ⟨rest, word, rfl, h⟩
    rw [splitAtByte?_behind h]
    exact Text.sameLetters_cons_space_iff.mpr ⟨word, rfl, h⟩

theorem ofLine?_eq (line : List Char) : ofLine? line = some (ofLine line) := by
  unfold ofLine?
  dsimp only
  split_ifs with halone hbegins hends
  · simp only [ofLine, halone, if_true]
  · obtain ⟨word, rest, rfl, h⟩ := any_before_iff.mp hbegins
    rw [splitAtByte?_before h, ofLine_before h]
    rfl
  · obtain ⟨rest, word, rfl, h⟩ := any_behind_iff.mp hends
    rw [any_before_iff] at hbegins
    rw [psub_behind h, ofLine_behind h hbegins, Option.bind_eq_bind, Option.bind_some]
    have hsplit : splitAtByte? (rest ++ ' ' :: word) (byteSize rest) = some (rest, ' ' :: word) :=
      splitAtByte?_append _ _
    rw [hsplit]
    rfl
  · rw [any_before_iff] at hbegins
    rw [any_behind_iff] at hends
    rw [ofLine_plain (Bool.eq_false_iff.mpr halone) hbegins hends]

end Request

/-! ## What is entered -/

namespace Text
variable {cs ds : List Char}

theorem trimmed_of_visible (h : ∀ c ∈ cs, isBlank c = false) : Trimmed cs :=
  ⟨fun c hc => h c (List.mem_of_mem_head? hc), fun c hc => h c (List.mem_of_getLast? hc)⟩

theorem Trimmed.append_space (hcs : Trimmed cs) (hds : Trimmed ds) (hcs' : cs ≠ [])
    (hds' : ds ≠ []) : Trimmed (cs ++ ' ' :: ds) := by
  refine ⟨fun c hc => hcs.head c ?_, fun c hc => hds.last c ?_⟩
  · rwa [List.head?_append_of_ne_nil _ hcs'] at hc
  · rwa [List.getLast?_append_of_ne_nil _ (List.cons_ne_nil _ _), List.getLast?_cons_of_ne_nil hds']
      at hc

end Text

namespace Command
variable {line : List Char}

def words : List String := ["quit", "exit", "q", "clear", "reset", "help"]

theorem spellings_subset (c : Command) : c.spellings ⊆ words.map String.toList := by
  cases c <;> decide

theorem ofLine?_eq_none (h : ∀ word ∈ words, Text.sameLetters line word.toList = false) :
    ofLine? line = none := by
  cases hcommand : ofLine? line with
  | none => rfl
  | some c =>
    obtain ⟨spelling, hspelling, hline⟩ := exists_spelling hcommand
    obtain ⟨word, hword, rfl⟩ := List.mem_map.mp (spellings_subset c hspelling)
    rw [h word hword] at hline
    cases hline

/-- No command has a space. -/
theorem ofLine?_eq_none_of_space (h : ' ' ∈ line) : ofLine? line = none := by
  have hletters : (words.all fun word => word.toList.all (!Text.isBlank ·)) = true := by decide
  apply ofLine?_eq_none
  intro word hword
  by_contra hline
  nomatch Text.visible_of_sameLetters (Bool.eq_true_of_not_eq_false hline)
    (List.all_eq_true.mp hletters word hword) ' ' h

end Command

namespace Session
variable {s : Session} {line e word : List Char}

theorem submit_history (htext : s.buffer.text = line) (htrim : Text.Trimmed line) (hne : line ≠ [])
    (hnone : Command.ofLine? line = none)
    (hkeyword : Text.sameLetters line Request.keyword = false) :
    s.submit.history = s.history ++ [.ofRequest s.config (Request.ofLine line)] := by
  have hline : s.line = line := by rw [Session.line, htext, htrim.trim_eq]
  rw [submit_request (hline ▸ hne) (hline ▸ hnone) (hline ▸ hkeyword), hline,
    Entry.ofLine_request htrim hne hkeyword]
  rfl

/-- The keyword before an expression or behind it asks for its steps. -/
theorem submit_marked (he : Text.Trimmed e) (hne : e ≠ [])
    (halone : Text.sameLetters e Request.keyword = false) (hbegins : ¬ Request.Begins e)
    (hword : Text.sameLetters word Request.keyword = true)
    (htext : s.buffer.text = word ++ ' ' :: e ∨ s.buffer.text = e ++ ' ' :: word) :
    s.submit.history = s.history ++ [.ofRequest s.config ⟨true, e⟩] := by
  have hmarker : Text.Trimmed word := Text.trimmed_of_visible (Request.visible_keyword hword)
  have hmarker' : word ≠ [] := by
    rintro rfl
    nomatch hword
  rcases htext with htext | htext
  · have hspace : ' ' ∈ word ++ ' ' :: e := by simp
    rw [submit_history htext (hmarker.append_space he hmarker' hne) (by simp)
      (Command.ofLine?_eq_none_of_space hspace) (Request.sameLetters_of_space hspace),
      Request.ofLine_before hword, he.trim_eq]
  · have hspace : ' ' ∈ e ++ ' ' :: word := by simp
    have hbegins' := Request.not_begins_append halone hbegins word
    rw [submit_history htext (he.append_space hmarker hne hmarker') (by simp)
      (Command.ofLine?_eq_none_of_space hspace) (Request.sameLetters_of_space hspace),
      Request.ofLine_behind hword hbegins', he.trim_eq]

end Session

/-- No line is cut inside a character where the keyword is looked for and taken out.  An expression
that is not the keyword and does not begin with it has one entry with its steps, whichever session
of the configuration it is entered in, with the keyword in any letter case, before it or behind it;
and if it neither ends with the keyword nor is a command, it has without the keyword an entry with
the same outcome and no steps. -/
theorem spellings_agree :
    (∀ line, Request.ofLine? line = some (Request.ofLine line)) ∧
    ∀ (config : Config) (e : List Char), Text.trim e = e → e ≠ [] →
      Text.sameLetters e Request.keyword = false → ¬ Request.Begins e →
      ∃ detailed plain : Entry,
        (detailed.input = e ∧ detailed.outcome = .ofResult (config.evaluate e).result ∧
          detailed.steps = config.stepsAlone e ∧ detailed.detailed = true) ∧
        (plain.input = detailed.input ∧ plain.outcome = detailed.outcome ∧ plain.steps = []) ∧
        ∀ s : Session, s.config = config →
          (∀ word, Text.sameLetters word Request.keyword = true →
            s.buffer.text = word ++ ' ' :: e ∨ s.buffer.text = e ++ ' ' :: word →
              s.submit.history = s.history ++ [detailed]) ∧
          (s.buffer.text = e → ¬ Request.Ends e →
            (∀ word ∈ Command.words, Text.sameLetters e word.toList = false) →
              s.submit.history = s.history ++ [plain]) := by
  refine ⟨Request.ofLine?_eq, fun config e htrim hne halone hbegins => ?_⟩
  have he : Text.Trimmed e := htrim ▸ Text.trimmed_trim e
  refine ⟨.ofRequest config ⟨true, e⟩, .ofRequest config ⟨false, e⟩, ⟨rfl, rfl, rfl, rfl⟩,
    ⟨rfl, rfl, rfl⟩, ?_⟩
  rintro s rfl
  refine ⟨fun word hword => Session.submit_marked he hne halone hbegins hword, ?_⟩
  intro htext hends hcommand
  rw [Session.submit_history htext he hne (Command.ofLine?_eq_none hcommand) halone,
    Request.ofLine_plain halone hbegins hends]

/-- Both offsets at which the keyword is looked for fall into an accented letter. -/
theorem accented_agree :
    let e := "é+1+1+é".toList
    let submitted (text : List Char) := Session.submit { buffer := .ofText text }
    Text.trim e = e ∧ e ≠ [] ∧ Text.sameLetters e Request.keyword = false ∧ ¬ Request.Begins e ∧
      ¬ Request.Ends e ∧ (∀ word ∈ Command.words, Text.sameLetters e word.toList = false) ∧
      splitAtByte? e 8 = none ∧ splitAtByte? e (Request.byteSize e - 8) = none ∧
      Request.ofLine? e = some ⟨false, e⟩ ∧
      ∃ detailed plain : Entry, plain.outcome = detailed.outcome ∧ plain.steps = [] ∧
        (submitted ("Details ".toList ++ e)).history = [detailed] ∧
        (submitted (e ++ " DETAILS".toList)).history = [detailed] ∧
        (submitted e).history = [plain] := by
  intro e submitted
  have htrim : Text.trim e = e := by decide
  have hne : e ≠ [] := by decide
  have halone : Text.sameLetters e Request.keyword = false := by decide
  have hbegins : ¬ Request.Begins e := by
    rw [← Request.begins_iff]
    decide
  have hends : ¬ Request.Ends e := by
    rw [← Request.ends_iff]
    decide
  have hcommand : ∀ word ∈ Command.words, Text.sameLetters e word.toList = false := by decide
  obtain ⟨hchecked, hall⟩ := spellings_agree
  obtain ⟨detailed, plain, -, ⟨-, houtcome, hsteps⟩, hentered⟩ :=
    hall {} e htrim hne halone hbegins
  refine ⟨htrim, hne, halone, hbegins, hends, hcommand, by decide, by decide, ?_, detailed, plain,
    houtcome, hsteps, ?_, ?_, ?_⟩
  · rw [hchecked, Request.ofLine_plain halone hbegins hends]
  · exact (hentered _ rfl).1 "Details".toList (by decide) (.inl rfl)
  · exact (hentered _ rfl).1 "DETAILS".toList (by decide) (.inr rfl)
  · exact (hentered _ rfl).2 rfl hends hcommand

end Calculator
