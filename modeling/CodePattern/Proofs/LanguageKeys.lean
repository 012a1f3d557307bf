import CodePattern.Language
import CodePattern.Proofs.Numerals
import Mathlib.Data.List.DropRight

/-! What a text says of a language. All that counts is its key: the text without the white space
around it, in small letters. A key stands for a language if it is one of the names of the language
or a numeral of its number. Every other numeral of 32 bits is reported by its value, and every other
key, the numerals that are too large among them, as an unknown name. -/

namespace CodePattern

/-- A text, and what is left of it without the white space around it. -/
inductive Padded : List Char → List Char → Prop
  | intro {before core behind : List Char} (hbefore : ∀ c ∈ before, isBlank c = true)
    (hbehind : ∀ c ∈ behind, isBlank c = true) (hfirst : ∀ c ∈ core.head?, isBlank c = false)
    (hlast : ∀ c ∈ core.getLast?, isBlank c = false) : Padded (before ++ core ++ behind) core

theorem dropWhile_isBlank_append {blanks rest : List Char}
    (hblanks : ∀ c ∈ blanks, isBlank c = true) (hrest : ∀ c ∈ rest.head?, isBlank c = false) :
    (blanks ++ rest).dropWhile isBlank = rest := by
  rw [List.dropWhile_append_of_pos hblanks]
  cases rest with
  | nil => rfl
  | cons c rest => exact List.dropWhile_cons_of_neg (by simp [hrest c rfl])

theorem not_isBlank_of_mem_head?_dropWhile {cs : List Char} :
    ∀ c ∈ (cs.dropWhile isBlank).head?, isBlank c = false := by
  intro c hc
  have hnot := List.head?_dropWhile_not isBlank cs
  rw [hc] at hnot
  simpa using hnot

theorem trimEnd_append {core blanks : List Char} (hblanks : ∀ c ∈ blanks, isBlank c = true)
    (hlast : ∀ c ∈ core.getLast?, isBlank c = false) : trimEnd (core ++ blanks) = core := by
  have hdrop : (blanks.reverse ++ core.reverse).dropWhile isBlank = core.reverse :=
    dropWhile_isBlank_append (fun c hc => hblanks c (List.mem_reverse.mp hc))
      (by rwa [List.head?_reverse])
  rw [trimEnd, List.reverse_append, hdrop, List.reverse_reverse]

theorem trim_of_padded {text core : List Char} (h : Padded text core) : trim text = core := by
  obtain @⟨before, core, behind, hbefore, hbehind, hfirst, hlast⟩ := h
  rw [trim, List.append_assoc]
  cases core with
  | nil =>
    -- The white space on the two sides is one piece, and the start takes all of it.
    have hblank : ∀ c ∈ before ++ behind, isBlank c = true :=
      List.forall_mem_append.mpr ⟨hbefore, hbehind⟩
    have hstart : trimStart (before ++ behind) = [] := List.dropWhile_eq_nil_iff.mpr hblank
    rw [List.nil_append, hstart]
    rfl
  | cons c core =>
    have hstart : trimStart (before ++ (c :: core ++ behind)) = c :: core ++ behind :=
      dropWhile_isBlank_append hbefore hfirst
    rw [hstart, trimEnd_append hbehind hlast]

theorem padded_trim (text : List Char) : Padded text (trim text) := by
  have hrest : trim text ++ (trimStart text).rtakeWhile isBlank = trimStart text :=
    List.rdropWhile_append_rtakeWhile
  have htext :
      text.takeWhile isBlank ++ trim text ++ (trimStart text).rtakeWhile isBlank = text := by
    rw [List.append_assoc, hrest]
    exact List.takeWhile_append_dropWhile
  have hfirst : ∀ c ∈ (trim text).head?, isBlank c = false := by
    intro c hc
    have hhead : (trimStart text).head? = some c := by
      rw [← hrest, List.head?_append, hc]
      rfl
    exact not_isBlank_of_mem_head?_dropWhile c hhead
  have hlast : ∀ c ∈ (trim text).getLast?, isBlank c = false := by
    rw [trim, trimEnd, List.getLast?_reverse]
    exact not_isBlank_of_mem_head?_dropWhile
  have h := Padded.intro (fun c => List.mem_takeWhile_imp (l := text))
    (fun c => List.mem_rtakeWhile_imp (l := trimStart text)) hfirst hlast
  rwa [htext] at h

theorem padded_iff {text core : List Char} : Padded text core ↔ trim text = core :=
  ⟨trim_of_padded, fun h => h ▸ padded_trim text⟩

namespace Language

/-- The text between its white space, in small letters. -/
def IsKey (text : String) (key : List Char) : Prop :=
  ∃ core, Padded text.toList core ∧ core.map Char.toLower = key

def names : Language → List String
  | .php => ["php"]
  | .python2 => ["python2", "py2"]
  | .python3 => ["python3", "py3"]
  | .python => ["python", "py"]

theorem isKey_iff {text : String} {key : List Char} :
    IsKey text key ↔ lowerAscii (trim text.toList) = key := by
  simp [IsKey, padded_iff, lowerAscii]

theorem ofName?_eq_some_iff {word : String} {lang : Language} :
    ofName? word = some lang ↔ word ∈ lang.names := by
  constructor
  · fun_cases ofName? word <;> intro h <;> cases h <;> decide
  · have hnames : ∀ word ∈ lang.names, ofName? word = some lang := by cases lang <;> decide
    exact hnames word

theorem ofId?_eq_some_iff {n : Nat} {lang : Language} : ofId? n = some lang ↔ lang.id = n := by
  constructor
  · intro h
    simpa using List.find?_some h
  · rintro rfl
    cases lang <;> rfl

theorem id_lt_size (lang : Language) : lang.id < UInt32.size := by cases lang <;> decide

/-- No name is a numeral, so it does not matter which of the two is tried first. -/
theorem not_numeral_of_mem_names {key : List Char} {lang : Language}
    (h : String.ofList key ∈ lang.names) (n : Nat) : ¬ Numeral key n := by
  intro hnumeral
  have hfirst : ∀ word ∈ lang.names, word.toList.head? = some 'p' := by cases lang <;> decide
  have hp := hfirst _ h
  rw [String.toList_ofList] at hp
  exact absurd (hnumeral.first 'p' hp) (by decide)

section Verdict

variable {text : String} {key : List Char} {n : Nat} {lang : Language}

theorem parse_of_numeral (hkey : IsKey text key) (hnumeral : Numeral key n)
    (hfits : n < UInt32.size) :
    parse text = (ofId? n).elim (.error (.unknownId n)) .ok := by
  have hread : readNumeral UInt32.size key = .ok n :=
    (readNumeral_eq_ok_iff (by decide)).mpr ⟨hnumeral, hfits⟩
  simp only [parse, isKey_iff.mp hkey, hread]
  cases ofId? n <;> rfl

theorem parse_of_word (hkey : IsKey text key) (hword : ∀ n, Numeral key n → UInt32.size ≤ n) :
    parse text =
      (ofName? (String.ofList key)).elim (.error (.unknownName (String.ofList key))) .ok := by
  cases hread : readNumeral UInt32.size key with
  | ok n =>
    obtain ⟨hnumeral, hfits⟩ := (readNumeral_eq_ok_iff (by decide)).mp hread
    exact absurd hfits (Nat.not_lt.mpr (hword n hnumeral))
  | error fault =>
    simp only [parse, isKey_iff.mp hkey, hread]
    cases ofName? (String.ofList key) <;> rfl

theorem elim_eq_ok_iff {known : Option Language} {e : LanguageError} :
    known.elim (.error e) .ok = (.ok lang : Except LanguageError Language) ↔ known = some lang := by
  cases known <;> simp

theorem parse_eq_ok_iff (hkey : IsKey text key) :
    parse text = .ok lang ↔ String.ofList key ∈ lang.names ∨ Numeral key lang.id := by
  by_cases hnumeral : ∃ n, Numeral key n ∧ n < UInt32.size
  · obtain ⟨n, hn, hfits⟩ := hnumeral
    rw [parse_of_numeral hkey hn hfits, elim_eq_ok_iff, ofId?_eq_some_iff]
    constructor
    · rintro rfl
      exact .inr hn
    · rintro (hname | hid)
      · exact absurd hn (not_numeral_of_mem_names hname n)
      · exact hid.unique hn
  · have hword : ∀ n, Numeral key n → UInt32.size ≤ n :=
      fun n hn => Nat.not_lt.mp fun hfits => hnumeral ⟨n, hn, hfits⟩
    rw [parse_of_word hkey hword, elim_eq_ok_iff, ofName?_eq_some_iff]
    constructor
    · exact .inl
    · rintro (hname | hid)
      · exact hname
      · exact absurd lang.id_lt_size (Nat.not_lt.mpr (hword _ hid))

theorem parse_unknownId (hkey : IsKey text key) (hnumeral : Numeral key n)
    (hfits : n < UInt32.size) (hid : ∀ lang : Language, lang.id ≠ n) :
    parse text = .error (.unknownId n) := by
  have hnone : ofId? n = none :=
    Option.eq_none_iff_forall_ne_some.mpr fun lang h => hid lang (ofId?_eq_some_iff.mp h)
  rw [parse_of_numeral hkey hnumeral hfits, hnone]
  rfl

theorem parse_unknownName (hkey : IsKey text key)
    (hname : ∀ lang : Language, String.ofList key ∉ lang.names)
    (hword : ∀ n, Numeral key n → UInt32.size ≤ n) :
    parse text = .error (.unknownName (String.ofList key)) := by
  have hnone : ofName? (String.ofList key) = none :=
    Option.eq_none_iff_forall_ne_some.mpr fun lang h => hname lang (ofName?_eq_some_iff.mp h)
  rw [parse_of_word hkey hword, hnone]
  rfl

end Verdict

/-- Every text has one key, and texts with one key are read alike. The key is accepted exactly if it
is a name or a numeral of the number of a language. What is refused is told by its value if it is
a numeral of 32 bits, and by the key itself if it is not. -/
theorem parse_by_key (text : String) :
    ∃ key, (∀ other, IsKey text other ↔ other = key) ∧
      (∀ lang, parse text = .ok lang ↔ String.ofList key ∈ lang.names ∨ Numeral key lang.id) ∧
      (∀ n, Numeral key n → n < UInt32.size → (∀ lang : Language, lang.id ≠ n) →
        (parse text).mapError LanguageError.message =
          .error ("unknown language id: " ++ toString n)) ∧
      ((∀ lang : Language, String.ofList key ∉ lang.names) →
        (∀ n, Numeral key n → UInt32.size ≤ n) →
        (parse text).mapError LanguageError.message =
          .error ("unknown language: " ++ String.ofList key)) ∧
      ∀ other, IsKey other key → parse other = parse text := by
  have hkey : IsKey text (lowerAscii (trim text.toList)) := isKey_iff.mpr rfl
  refine ⟨_, fun other => isKey_iff.trans eq_comm, fun lang => parse_eq_ok_iff hkey,
    fun n hnumeral hfits hid => ?_, fun hname hword => ?_, fun other hother => ?_⟩
  · rw [parse_unknownId hkey hnumeral hfits hid]
    rfl
  · rw [parse_unknownName hkey hname hword]
    rfl
  · simp only [parse, isKey_iff.mp hother]

example : parse "\u00a0Py2\n" = .ok .python2 ∧ parse "+0022" = .ok .python2 ∧
    parse "4294967318" = .error (.unknownName "4294967318") := by decide

end Language

end CodePattern
