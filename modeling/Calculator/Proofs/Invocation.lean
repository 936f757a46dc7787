import Calculator.CommandLine
import Calculator.Proofs.Joining
import Calculator.Proofs.Request

/-! # Arguments and input

An expression is taken from the arguments or from the first line of the input.  The two ways differ
in the blanks at the end of the line, and those are never read.
-/
namespace Calculator

/-! ## The first line of an input -/

section Bytes

theorem toList_loop (front bytes seen : List UInt8) :
    ByteArray.toList.loop ⟨⟨front ++ bytes⟩⟩ front.length seen = seen.reverse ++ bytes := by
  induction bytes generalizing front seen with
  | nil => simp [ByteArray.toList.loop, ByteArray.size]
  | cons b bytes ih =>
    have hsize : front.length < ByteArray.size ⟨⟨front ++ b :: bytes⟩⟩ := by
      simp [ByteArray.size]
    have hget : ByteArray.get! ⟨⟨front ++ b :: bytes⟩⟩ front.length = b := by
      simp [ByteArray.get!]
    have hnext := ih (front ++ [b]) (b :: seen)
    rw [ByteArray.toList.loop, if_pos hsize, hget]
    simpa using hnext

theorem toList_eq_data (bytes : ByteArray) : bytes.toList = bytes.data.toList :=
  toList_loop [] bytes.data.toList []

theorem toList_append (a b : ByteArray) : (a ++ b).toList = a.toList ++ b.toList := by
  simp only [toList_eq_data, ByteArray.data_append, Array.toList_append]

theorem toList_toUTF8 (cs : List Char) :
    (String.ofList cs).toUTF8.toList = cs.flatMap String.utf8EncodeChar := by
  rw [toList_eq_data]
  exact List.toList_data_toByteArray

theorem fromUTF8?_encoded (cs : List Char) :
    String.fromUTF8? ⟨(cs.flatMap String.utf8EncodeChar).toArray⟩ = some (String.ofList cs) := by
  have hbytes : (⟨(cs.flatMap String.utf8EncodeChar).toArray⟩ : ByteArray) =
      (String.ofList cs).toByteArray := by
    apply ByteArray.ext
    exact List.data_toByteArray.symm
  rw [hbytes, String.fromUTF8?, dif_pos (String.ofList cs).isValidUTF8]
  rfl

/-- Only a line break is encoded with the byte of a line break. -/
theorem newline_of_mem_utf8EncodeChar {c : Char} (h : 10 ∈ String.utf8EncodeChar c) : c = '\n' := by
  have hnat {n : Nat} (heq : 10 = UInt8.ofNat n) : n % 256 = 10 := by
    rw [← UInt8.toNat_ofNat', ← heq]
    rfl
  -- The bytes of a character outside ASCII are all at least 128.
  have hhigh (n k : Nat) (hlow : 128 ≤ k) (hk : k < 256) (hn : n < 256 - k) :
      10 ≠ UInt8.ofNat (n + k) := by
    intro heq
    have h10 := hnat heq
    omega
  have hcontinuation (n : Nat) : 10 ≠ UInt8.ofNat (n % 64 + 128) :=
    hhigh _ 128 (by omega) (by omega) (by omega)
  simp only [String.utf8EncodeChar] at h
  split_ifs at h with hone htwo hthree
  · have hval := hnat (List.mem_singleton.mp h)
    have hten : c.val.toNat = 10 := by omega
    exact Char.ext (UInt32.toNat_inj.mp hten)
  · have hlead := hhigh (c.val.toNat / 64 % 32) 192 (by omega) (by omega) (by omega)
    simp only [List.mem_cons, List.not_mem_nil, hlead, hcontinuation, or_false] at h
  · have hlead := hhigh (c.val.toNat / 4096 % 16) 224 (by omega) (by omega) (by omega)
    simp only [List.mem_cons, List.not_mem_nil, hlead, hcontinuation, or_false] at h
  · have hlead := hhigh (c.val.toNat / 262144 % 8) 240 (by omega) (by omega) (by omega)
    simp only [List.mem_cons, List.not_mem_nil, hlead, hcontinuation, or_false] at h

/-- What stands behind a line in an input: nothing, or a line break and whatever follows it. -/
def EndsLine (behind : ByteArray) : Prop :=
  behind = .empty ∨ ∃ more, behind = "\n".toUTF8 ++ more

/-- The first line is read with its line break, if it has one. -/
theorem exists_firstLine {line : List Char} {behind : ByteArray} (hline : '\n' ∉ line)
    (hbehind : EndsLine behind) :
    ∃ ending, (∀ c ∈ ending, c = '\n') ∧
      CommandLine.firstLine? ((String.ofList line).toUTF8 ++ behind) = some (line ++ ending) := by
  have hbytes : ∀ b ∈ line.flatMap String.utf8EncodeChar, (b != 10) = true := by
    intro b hb
    rw [bne_iff_ne]
    rintro rfl
    obtain ⟨c, hc, hten⟩ := List.mem_flatMap.mp hb
    exact hline (newline_of_mem_utf8EncodeChar hten ▸ hc)
  simp only [CommandLine.firstLine?, toList_append, toList_toUTF8,
    List.takeWhile_append_of_pos hbytes, List.dropWhile_append_of_pos hbytes]
  rcases hbehind with rfl | ⟨more, rfl⟩
  · refine ⟨[], by simp, ?_⟩
    rw [toList_eq_data, ByteArray.data_empty]
    simp [fromUTF8?_encoded]
  · refine ⟨['\n'], by simp, ?_⟩
    have hbreak : "\n".toUTF8.toList = ['\n'].flatMap String.utf8EncodeChar := toList_toUTF8 ['\n']
    have hten : ['\n'].flatMap String.utf8EncodeChar = [10] := rfl
    rw [toList_append, hbreak, hten]
    have hencoded := fromUTF8?_encoded (line ++ ['\n'])
    rw [List.flatMap_append, hten] at hencoded
    simp [hencoded]

end Bytes

/-! ## Evaluation -/

theorem evaluate_result_congr {x y : List Char} (h : tokenize x = tokenize y) (config : Config) :
    (config.evaluate x).result = (config.evaluate y).result := by
  cases hy : tokenize y with
  | error e => rw [evaluate_eq_of_error (h.trans hy), evaluate_eq_of_error hy]
  | ok ts => rw [evaluate_eq_of_ok (h.trans hy), evaluate_eq_of_ok hy]

theorem tokenize_trimEnd (cs : List Char) : tokenize (Text.trimEnd cs) = tokenize cs := by
  have hblank : ∀ c ∈ cs.rtakeWhile Text.isBlank, Text.isBlank c = true := fun c hc =>
    List.mem_rtakeWhile_imp hc
  have h : tokenize (Text.trimEnd cs ++ cs.rtakeWhile Text.isBlank) = tokenize (Text.trimEnd cs) :=
    tokenize_append_blanks hblank
  rw [Text.trimEnd_eq, List.rdropWhile_append_rtakeWhile] at h
  exact h.symm

namespace CommandLine

def options : List (List Char) :=
  ["--help".toList, "-h".toList, "--plain".toList, "--line".toList]

/-- What a run that takes over no terminal leaves behind, for a value of `MATHSYN_MAX_DEPTH`.
Nothing is logged. -/
def program (features : Features) (limit : Option (List Char)) (args : List (List Char))
    (input : ByteArray) : Option Exit :=
  (Mode.ofArguments features args).run? (Config.ofEnvironment limit).1 input

theorem ofArguments_once (features : Features) {first : List Char} (others : List (List Char))
    (h : first ∉ options) :
    Mode.ofArguments features (first :: others) = .once (Text.unwords (first :: others)) := by
  simp only [options, List.mem_cons, List.not_mem_nil, or_false, not_or] at h
  obtain ⟨hhelp, hh, hplain, hline⟩ := h
  simp only [Mode.ofArguments, hhelp, hh, hplain, hline, decide_false, Bool.or_false,
    Bool.false_eq_true, if_false]

theorem once_congr {x y : List Char} (h : tokenize x = tokenize y) (config : Config) :
    once config x = once config y := by
  simp only [once, evaluate_result_congr h config]

/-- An expression that is passed by the arguments, in whatever parts between single spaces, and the
same expression as the first line of the input, with any blanks behind it, lead to the same status
and the same errors; the output differs only by the invitation. -/
theorem plain_agrees (features : Features) (limit : Option (List Char)) (input : ByteArray)
    {expression first gap : List Char} {others : List (List Char)} {behind : ByteArray}
    (hline : '\n' ∉ expression) (hwords : Text.unwords (first :: others) = expression)
    (hfirst : first ∉ options) (hgap : ∀ c ∈ gap, Text.isBlank c = true ∧ c ≠ '\n')
    (hbehind : EndsLine behind) :
    ∃ given asked, program features limit (first :: others) input = some given ∧
      program features limit ["--plain".toList]
        ((String.ofList (expression ++ gap)).toUTF8 ++ behind) = some asked ∧
      asked.status = given.status ∧ asked.errors = given.errors ∧
      asked.output = invitation ++ given.output := by
  have hread : '\n' ∉ expression ++ gap := by
    rw [List.mem_append, not_or]
    exact ⟨hline, fun h => (hgap _ h).2 rfl⟩
  obtain ⟨ending, hending, hfirstLine⟩ := exists_firstLine hread hbehind
  have htokens : tokenize (Text.trimEnd (expression ++ gap ++ ending)) = tokenize expression := by
    have hblank : ∀ c ∈ gap ++ ending, Text.isBlank c = true := by
      intro c hc
      rcases List.mem_append.mp hc with hc | hc
      · exact (hgap c hc).1
      · rw [hending c hc]
        rfl
    rw [tokenize_trimEnd, List.append_assoc, tokenize_append_blanks hblank]
  have hgiven := ofArguments_once features others hfirst
  rw [hwords] at hgiven
  refine ⟨once (Config.ofEnvironment limit).1 expression, plain (Config.ofEnvironment limit).1 _,
    ?_, rfl, ?_⟩
  · rw [program, hgiven]
    rfl
  · simp only [plain, onceFromInput, hfirstLine, once_congr htokens, and_self]

/-- The same two arguments and the line that they make up, with a wide blank behind it. -/
theorem product_agrees :
    ∃ given asked, program {} (some "8".toList) ["2 *".toList, "(3)".toList] .empty = some given ∧
      program {} (some "8".toList) ["--plain".toList]
        ((String.ofList ("2 * (3)".toList ++ ['\u3000'])).toUTF8 ++ "\n".toUTF8) = some asked ∧
      asked.status = given.status ∧ asked.errors = given.errors ∧
      asked.output = invitation ++ given.output := by
  have hline : '\n' ∉ "2 * (3)".toList := by decide
  have hwords : Text.unwords ["2 *".toList, "(3)".toList] = "2 * (3)".toList := by decide
  have hfirst : "2 *".toList ∉ options := by decide
  have hgap : ∀ c ∈ ['\u3000'], Text.isBlank c = true ∧ c ≠ '\n' :=
    List.forall_mem_singleton.mpr ⟨rfl, by decide⟩
  have hbehind : EndsLine "\n".toUTF8 := .inr ⟨.empty, ByteArray.append_empty.symm⟩
  exact plain_agrees {} _ .empty hline hwords hfirst hgap hbehind

end CommandLine

end Calculator
