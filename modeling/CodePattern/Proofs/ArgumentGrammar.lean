import CodePattern.CommandLine
import Mathlib.Data.List.Basic

/-! The grammar of argument vectors. After the command stand blocks: a flag with its value, the
switch for strict parses, or a positional word. Two dashes in place of a block end the blocks,
and whatever follows is positional. A vector is accepted exactly if it has this form, some block
names the package, and the command finds what it needs. What it then says of an option is what
the last block of that option says, so blocks of different options may change places. -/

namespace CodePattern

inductive Block where
  | package (package : Package)
  | lang (lang : Language)
  | root (directory : String)
  | maxBytes (limit : Nat)
  | timeoutMicros (limit : Nat)
  | strict
  | positional (word : String)
  deriving DecidableEq, Repr

namespace Block

/-- A value that a flag accepts. -/
inductive Sets : Block → Flag → String → Prop
  | package {p : Package} {value : String} (h : Package.parse value = .ok p) :
    Sets (.package p) .package value
  | lang {l : Language} {value : String} (h : Language.parse value = .ok l) :
    Sets (.lang l) .lang value
  | root (value : String) : Sets (.root value) .root value
  | maxBytes {n : Nat} {value : String} (h : readNumeral UInt64.size value.toList = .ok n) :
    Sets (.maxBytes n) .maxBytes value
  | timeoutMicros {n : Nat} {value : String} (h : readNumeral UInt64.size value.toList = .ok n) :
    Sets (.timeoutMicros n) .timeoutMicros value

inductive Written : Block → List String → Prop
  | option {b : Block} {flag : Flag} {value : String} (h : b.Sets flag value) :
    Written b [flag.word, value]
  | strict : Written .strict ["--strict"]
  | positional {word : String} (h : ¬['-', '-'] <+: word.toList) :
    Written (.positional word) [word]

def package? : Block → Option Package
  | .package p => some p
  | _ => none

def lang? : Block → Option Language
  | .lang l => some l
  | _ => none

def root? : Block → Option String
  | .root directory => some directory
  | _ => none

def maxBytes? : Block → Option Nat
  | .maxBytes n => some n
  | _ => none

def timeoutMicros? : Block → Option Nat
  | .timeoutMicros n => some n
  | _ => none

def positional? : Block → Option String
  | .positional word => some word
  | _ => none

inductive Kind where
  | flag (flag : Flag)
  | strict
  | positional
  deriving DecidableEq, Repr

def kind : Block → Kind
  | .package _ => .flag .package
  | .lang _ => .flag .lang
  | .root _ => .flag .root
  | .maxBytes _ => .flag .maxBytes
  | .timeoutMicros _ => .flag .timeoutMicros
  | .strict => .strict
  | .positional _ => .positional

end Block

/-- The words are those of the blocks, and of the free words behind two dashes if there are
two dashes. -/
inductive Spells : List Block → List String → List String → Prop
  | nil : Spells [] [] []
  | separator (free : List String) : Spells [] free ("--" :: free)
  | block {b : Block} {blocks : List Block} {free ws words : List String} (hb : b.Written ws)
    (h : Spells blocks free words) : Spells (b :: blocks) free (ws ++ words)

/-- The last value that blocks give. -/
def lastOf {α : Type} (value? : Block → Option α) (blocks : List Block) : Option α :=
  (blocks.filterMap value?).getLast?

def Settings.ofBlocks (blocks : List Block) (free : List String) : Settings where
  package := lastOf Block.package? blocks
  lang := lastOf Block.lang? blocks
  strict := blocks.contains .strict
  root := lastOf Block.root? blocks
  config :=
    ⟨(lastOf Block.maxBytes? blocks).getD ParserConfig.default.maxTargetBytes,
      (lastOf Block.timeoutMicros? blocks).getD ParserConfig.default.parseTimeoutMicros⟩
  positionals := blocks.filterMap Block.positional? ++ free

/-- The command that a word asks for, if the settings have what it needs. -/
inductive Asks (home : Path) (s : Settings) : String → Command → Prop
  | langs : Asks home s "langs" .langs
  | pattern (h : s.positionals ≠ []) :
    Asks home s "pattern" (.pattern s.strict (" ".intercalate s.positionals))
  | target {first : String} {others : List String} (h : s.positionals = first :: others) :
    Asks home s "target" (.target first)
  | scan : Asks home s "scan" (.scan ((s.root.map Path.ofText).getD home))

theorem wordOf_word (flag : Flag) : wordOf flag.word = .flag flag := by cases flag <;> rfl

/-- What a word is taken for. -/
inductive TakenFor : String → Word → Prop
  | flag (flag : Flag) : TakenFor flag.word (.flag flag)
  | strict : TakenFor "--strict" .strict
  | separator : TakenFor "--" .separator
  | unknown {word : String} (h : ['-', '-'] <+: word.toList) : TakenFor word .unknown
  | positional {word : String} (h : ¬['-', '-'] <+: word.toList) : TakenFor word .positional

theorem takenFor_of_wordOf {word : String} {w : Word} (hword : wordOf word = w) :
    TakenFor word w := by
  subst hword
  fun_cases wordOf word with
  | case1 h => exact h ▸ .flag .package
  | case2 _ h => exact h ▸ .flag .lang
  | case3 _ _ h => exact h ▸ .flag .root
  | case4 _ _ _ h => exact h ▸ .strict
  | case5 _ _ _ _ h => exact h ▸ .flag .maxBytes
  | case6 _ _ _ _ _ h => exact h ▸ .flag .timeoutMicros
  | case7 _ _ _ _ _ _ h => exact h ▸ .separator
  | case8 _ _ _ _ _ _ _ h => exact .unknown (List.isPrefixOf_iff_prefix.mp h)
  | case9 _ _ _ _ _ _ _ h => exact .positional (mt List.isPrefixOf_iff_prefix.mpr h)

theorem wordOf_of_not_prefix {word : String} (h : ¬['-', '-'] <+: word.toList) :
    wordOf word = .positional := by
  generalize hw : wordOf word = w
  cases takenFor_of_wordOf hw with
  | flag flag => exact absurd (by cases flag <;> decide) h
  | strict => exact absurd (by decide) h
  | separator => exact absurd (by decide) h
  | unknown hprefix => exact absurd hprefix h
  | positional => rfl

theorem lastOf_concat {α : Type} (value? : Block → Option α) (blocks : List Block) (b : Block) :
    lastOf value? (blocks ++ [b]) = (value? b).or (lastOf value? blocks) := by
  simp only [lastOf, List.filterMap_append, List.getLast?_append]
  cases h : value? b <;> simp [h]

namespace Settings

def follow (s : Settings) : Block → Settings
  | .package p => { s with package := some p }
  | .lang l => { s with lang := some l }
  | .root directory => { s with root := some directory }
  | .maxBytes n => { s with config := { s.config with maxTargetBytes := n } }
  | .timeoutMicros n => { s with config := { s.config with parseTimeoutMicros := n } }
  | .strict => { s with strict := true }
  | .positional word => { s with positionals := s.positionals ++ [word] }

theorem ofBlocks_concat (blocks : List Block) (b : Block) :
    ofBlocks (blocks ++ [b]) [] = (ofBlocks blocks []).follow b := by
  cases b <;> simp [ofBlocks, follow, lastOf_concat, Block.package?, Block.lang?, Block.root?,
    Block.maxBytes?, Block.timeoutMicros?, Block.positional?]

theorem ofBlocks_free (blocks : List Block) (free : List String) :
    { ofBlocks blocks [] with positionals := (ofBlocks blocks []).positionals ++ free } =
      ofBlocks blocks free := by
  simp [ofBlocks]

theorem readLong_eq_ok_iff {flag : Flag} {value : String} {n : Nat} :
    readLong flag value = .ok n ↔ readNumeral UInt64.size value.toList = .ok n := by
  rw [readLong]
  cases readNumeral UInt64.size value.toList <;> simp

theorem set_of_sets {b : Block} {flag : Flag} {value : String} (hb : b.Sets flag value)
    (s : Settings) : s.set flag value = .ok (s.follow b) := by
  cases hb with
  | package h => simp [set, h, follow]
  | lang h => simp [set, h, follow]
  | root => rfl
  | maxBytes h => simp [set, readLong_eq_ok_iff.mpr h, follow, bind, Except.bind, pure, Except.pure]
  | timeoutMicros h =>
    simp [set, readLong_eq_ok_iff.mpr h, follow, bind, Except.bind, pure, Except.pure]

theorem exists_sets_of_set {s s' : Settings} {flag : Flag} {value : String}
    (h : s.set flag value = .ok s') : ∃ b : Block, b.Sets flag value ∧ s' = s.follow b := by
  cases flag with
  | package =>
    cases hp : Package.parse value with
    | error e => simp [set, hp] at h
    | ok p =>
      simp only [set, hp, Except.ok.injEq] at h
      exact ⟨_, .package hp, h.symm⟩
  | lang =>
    cases hl : Language.parse value with
    | error e => simp [set, hl] at h
    | ok l =>
      simp only [set, hl, Except.ok.injEq] at h
      exact ⟨_, .lang hl, h.symm⟩
  | root => exact ⟨_, .root value, (Except.ok.inj h).symm⟩
  | maxBytes =>
    cases hn : readLong .maxBytes value with
    | error e => simp [set, hn, bind, Except.bind] at h
    | ok n =>
      simp only [set, hn, bind, Except.bind, pure, Except.pure, Except.ok.injEq] at h
      exact ⟨_, .maxBytes (readLong_eq_ok_iff.mp hn), h.symm⟩
  | timeoutMicros =>
    cases hn : readLong .timeoutMicros value with
    | error e => simp [set, hn, bind, Except.bind] at h
    | ok n =>
      simp only [set, hn, bind, Except.bind, pure, Except.pure, Except.ok.injEq] at h
      exact ⟨_, .timeoutMicros (readLong_eq_ok_iff.mp hn), h.symm⟩

end Settings

theorem readWords_written {b : Block} {ws : List String} (hb : b.Written ws) (s : Settings)
    (words : List String) : readWords s (ws ++ words) = readWords (s.follow b) words := by
  cases hb with
  | option h => simp [readWords, wordOf_word, Settings.set_of_sets h]
  | strict => rfl
  | positional h =>
    simp [readWords, wordOf_of_not_prefix h, Settings.follow]

open Settings (ofBlocks ofBlocks_concat ofBlocks_free)

theorem readWords_of_spells {blocks : List Block} {free words : List String}
    (h : Spells blocks free words) (seen : List Block) :
    readWords (ofBlocks seen []) words = .ok (ofBlocks (seen ++ blocks) free) := by
  induction h generalizing seen with
  | nil => simp [readWords]
  | separator free =>
    rw [List.append_nil]
    exact congrArg Except.ok (ofBlocks_free seen free)
  | @block b blocks free ws words hb h ih =>
    rw [readWords_written hb, ← ofBlocks_concat, ih, List.append_assoc, List.singleton_append]

theorem exists_spells_cons {seen : List Block} {b : Block} {ws words : List String}
    {s : Settings} (hb : b.Written ws)
    (h : ∃ blocks free, Spells blocks free words ∧ s = ofBlocks (seen ++ [b] ++ blocks) free) :
    ∃ blocks free, Spells blocks free (ws ++ words) ∧ s = ofBlocks (seen ++ blocks) free := by
  obtain ⟨blocks, free, hspells, rfl⟩ := h
  exact ⟨b :: blocks, free, .block hb hspells, by simp⟩

theorem exists_spells {seen : List Block} {words : List String} {s : Settings}
    (h : readWords (ofBlocks seen []) words = .ok s) :
    ∃ blocks free, Spells blocks free words ∧ s = ofBlocks (seen ++ blocks) free := by
  generalize ho : ofBlocks seen [] = o at h
  -- The induction follows the reader. What it has set so far is what the blocks seen so far say.
  fun_induction readWords o words generalizing seen with
  | case1 => exact ⟨[], [], .nil, by simp [ho, Except.ok.inj h]⟩
  | case3 o word flag hword value rest o' hset ih =>
    obtain ⟨b, hb, rfl⟩ := Settings.exists_sets_of_set hset
    subst ho
    cases takenFor_of_wordOf hword
    exact exists_spells_cons (.option hb) (ih (ofBlocks_concat seen b) h)
  | case5 o word rest hword ih =>
    subst ho
    cases takenFor_of_wordOf hword
    exact exists_spells_cons .strict (ih (ofBlocks_concat seen .strict) h)
  | case6 o word rest hword =>
    subst ho
    cases takenFor_of_wordOf hword
    have hs : s = ofBlocks seen rest := (Except.ok.inj h).symm.trans (ofBlocks_free seen rest)
    exact ⟨[], rest, .separator rest, by rw [List.append_nil, hs]⟩
  | case8 o word rest hword ih =>
    subst ho
    cases takenFor_of_wordOf hword with
    | positional hfree =>
      exact exists_spells_cons (.positional hfree) (ih (ofBlocks_concat seen (.positional word)) h)
  | case2 | case4 | case7 => cases h

theorem readWords_eq_ok_iff {words : List String} {s : Settings} :
    readWords .initially words = .ok s ↔
      ∃ blocks free, Spells blocks free words ∧ s = ofBlocks blocks free := by
  have hinitially : Settings.initially = ofBlocks [] [] := rfl
  rw [hinitially]
  constructor
  · exact exists_spells
  · rintro ⟨blocks, free, hspells, rfl⟩
    exact readWords_of_spells hspells []

theorem commandOf_eq_ok_iff {home : Path} {s : Settings} {word : String} {c : Command} :
    commandOf home s word = .ok c ↔ Asks home s word c := by
  constructor
  · intro h
    simp only [commandOf] at h
    split at h
    · cases h
      exact .langs
    · split at h
      · cases h
      · next hne =>
        cases h
        exact .pattern (by simpa using hne)
    · split at h
      · cases h
      · next first others hs =>
        cases h
        exact .target hs
    · cases h
      exact .scan
    · cases h
  · rintro (_ | hne | hs | _)
    · rfl
    · simp [commandOf, hne]
    · simp [commandOf, hs]
    · rfl

theorem exists_asks_iff (home : Path) (s : Settings) (word : String) :
    (∃ c, Asks home s word c) ↔
      word = "langs" ∨ word = "scan" ∨
        (word = "pattern" ∨ word = "target") ∧ s.positionals ≠ [] := by
  constructor
  · rintro ⟨c, hc⟩
    cases hc with
    | langs => simp
    | pattern h => simp [h]
    | target h => simp [h]
    | scan => simp
  · rintro (rfl | rfl | ⟨rfl | rfl, h⟩)
    · exact ⟨_, .langs⟩
    · exact ⟨_, .scan⟩
    · exact ⟨_, .pattern h⟩
    · obtain ⟨first, others, hs⟩ := List.exists_cons_of_ne_nil h
      exact ⟨_, .target hs⟩

theorem readArguments_of_spells {blocks : List Block} {free words : List String}
    (h : Spells blocks free words) (home : Path) (word : String) :
    readArguments home (word :: words) =
      match lastOf Block.package? blocks with
      | none => .error .missingPackage
      | some package =>
        (commandOf home (ofBlocks blocks free) word).map fun command =>
          ⟨package, lastOf Block.lang? blocks, (ofBlocks blocks free).config, command⟩ := by
  have hwords := readWords_eq_ok_iff.mpr ⟨blocks, free, h, rfl⟩
  have hpackage : (ofBlocks blocks free).package = lastOf Block.package? blocks := rfl
  simp only [readArguments, hwords, bind, Except.bind, hpackage]
  cases lastOf Block.package? blocks with
  | none => rfl
  | some package => cases commandOf home (ofBlocks blocks free) word <;> rfl

/-- The arguments are what a command and the blocks behind it say. -/
structure Says (home : Path) (word : String) (blocks : List Block) (free : List String)
    (a : Arguments) : Prop where
  package : lastOf Block.package? blocks = some a.package
  lang : a.lang = lastOf Block.lang? blocks
  config : a.config = (ofBlocks blocks free).config
  command : Asks home (ofBlocks blocks free) word a.command

theorem readArguments_eq_ok_iff {home : Path} {word : String} {blocks : List Block}
    {free words : List String} {a : Arguments} (h : Spells blocks free words) :
    readArguments home (word :: words) = .ok a ↔ Says home word blocks free a := by
  rw [readArguments_of_spells h]
  constructor
  · intro ha
    split at ha
    · cases ha
    · next package hpackage =>
      cases hc : commandOf home (ofBlocks blocks free) word with
      | error e => simp [hc, Except.map] at ha
      | ok command =>
        simp only [hc, Except.map, Except.ok.injEq] at ha
        subst ha
        exact ⟨hpackage, rfl, rfl, commandOf_eq_ok_iff.mp hc⟩
  · obtain ⟨package, lang, config, command⟩ := a
    rintro ⟨hpackage, rfl, rfl, hcommand⟩
    simp only [hpackage, commandOf_eq_ok_iff.mpr hcommand]
    rfl

theorem exists_spells_of_readArguments {home : Path} {raw : List String} {a : Arguments}
    (h : readArguments home raw = .ok a) :
    ∃ word words blocks free, raw = word :: words ∧ Spells blocks free words := by
  cases raw with
  | nil => cases h
  | cons word words =>
    cases hs : readWords .initially words with
    | error e => simp [readArguments, hs, bind, Except.bind] at h
    | ok s =>
      obtain ⟨blocks, free, hspells, -⟩ := readWords_eq_ok_iff.mp hs
      exact ⟨word, words, blocks, free, rfl, hspells⟩

theorem lastOf_eq_none_iff {α : Type} {value? : Block → Option α} {blocks : List Block} :
    lastOf value? blocks = none ↔ ∀ b ∈ blocks, value? b = none := by
  simp [lastOf]

theorem exists_package_iff {blocks : List Block} :
    (∃ p, Block.package p ∈ blocks) ↔ ∃ p, lastOf Block.package? blocks = some p := by
  constructor
  · rintro ⟨p, hp⟩
    refine Option.ne_none_iff_exists'.mp fun hnone => ?_
    have hvalue := lastOf_eq_none_iff.mp hnone _ hp
    cases hvalue
  · rintro ⟨p, hp⟩
    obtain ⟨b, hb, hvalue⟩ := List.mem_filterMap.mp (List.mem_of_getLast? hp)
    cases b <;> simp [Block.package?] at hvalue
    exact ⟨_, hb⟩

theorem exists_says_iff {home : Path} {word : String} {blocks : List Block}
    {free : List String} :
    (∃ a, Says home word blocks free a) ↔
      (∃ p, Block.package p ∈ blocks) ∧
        (word = "langs" ∨ word = "scan" ∨ (word = "pattern" ∨ word = "target") ∧
          blocks.filterMap Block.positional? ++ free ≠ []) := by
  have hasks := exists_asks_iff home (ofBlocks blocks free) word
  have hpositionals : (ofBlocks blocks free).positionals =
      blocks.filterMap Block.positional? ++ free := rfl
  rw [hpositionals] at hasks
  rw [exists_package_iff, ← hasks]
  constructor
  · rintro ⟨a, ha⟩
    exact ⟨⟨_, ha.package⟩, _, ha.command⟩
  · rintro ⟨⟨package, hpackage⟩, command, hcommand⟩
    exact ⟨⟨package, _, _, command⟩, hpackage, rfl, rfl, hcommand⟩

/-- The blocks of every kind stand in the same order. -/
def SameOrder (blocks others : List Block) : Prop :=
  ∀ kind, blocks.filter (·.kind = kind) = others.filter (·.kind = kind)

theorem Block.eq_none_of_kind (b : Block) :
    (b.kind ≠ .flag .package → b.package? = none) ∧ (b.kind ≠ .flag .lang → b.lang? = none) ∧
      (b.kind ≠ .flag .root → b.root? = none) ∧ (b.kind ≠ .flag .maxBytes → b.maxBytes? = none) ∧
      (b.kind ≠ .flag .timeoutMicros → b.timeoutMicros? = none) ∧
      (b.kind ≠ .positional → b.positional? = none) := by
  cases b <;> simp [kind, package?, lang?, root?, maxBytes?, timeoutMicros?, positional?]

theorem filterMap_filter_kind {α : Type} {value? : Block → Option α} {kind : Block.Kind}
    (h : ∀ b : Block, b.kind ≠ kind → value? b = none) (blocks : List Block) :
    (blocks.filter (·.kind = kind)).filterMap value? = blocks.filterMap value? := by
  rw [List.filterMap_filter]
  refine List.filterMap_congr fun b _ => ?_
  by_cases hb : b.kind = kind
  · simp [hb]
  · simp [hb, h b hb]

namespace SameOrder

variable {blocks others : List Block}

theorem filterMap_eq {α : Type} {value? : Block → Option α} {kind : Block.Kind}
    (h : SameOrder blocks others) (hkind : ∀ b : Block, b.kind ≠ kind → value? b = none) :
    blocks.filterMap value? = others.filterMap value? := by
  rw [← filterMap_filter_kind hkind blocks, h kind, filterMap_filter_kind hkind others]

theorem contains_strict_eq (h : SameOrder blocks others) :
    blocks.contains .strict = others.contains .strict := by
  have hmem : ∀ bs : List Block, .strict ∈ bs ↔ .strict ∈ bs.filter (·.kind = .strict) := by
    intro bs
    simp [Block.kind]
  rw [Bool.eq_iff_iff, List.contains_iff_mem, List.contains_iff_mem, hmem, h .strict, ← hmem]

theorem ofBlocks_eq (h : SameOrder blocks others) (free : List String) :
    ofBlocks blocks free = ofBlocks others free := by
  have hpackage := h.filterMap_eq fun b => b.eq_none_of_kind.1
  have hlang := h.filterMap_eq fun b => b.eq_none_of_kind.2.1
  have hroot := h.filterMap_eq fun b => b.eq_none_of_kind.2.2.1
  have hmax := h.filterMap_eq fun b => b.eq_none_of_kind.2.2.2.1
  have htimeout := h.filterMap_eq fun b => b.eq_none_of_kind.2.2.2.2.1
  have hpositional := h.filterMap_eq fun b => b.eq_none_of_kind.2.2.2.2.2
  simp only [ofBlocks, lastOf, hpackage, hlang, hroot, hmax, htimeout, hpositional,
    h.contains_strict_eq]

end SameOrder

/-- A vector is accepted exactly if blocks spell it, one of them names the package and the
command has what it needs. Of each option the last block counts, and so blocks of different
kinds may change places. -/
theorem arguments_accepted_iff (home : Path) :
    (∀ raw, (∃ a, readArguments home raw = .ok a) ↔
      ∃ word words blocks free, raw = word :: words ∧ Spells blocks free words ∧
        (∃ p, Block.package p ∈ blocks) ∧
        (word = "langs" ∨ word = "scan" ∨ (word = "pattern" ∨ word = "target") ∧
          blocks.filterMap Block.positional? ++ free ≠ [])) ∧
    (∀ word words blocks free a, Spells blocks free words →
      (readArguments home (word :: words) = .ok a ↔ Says home word blocks free a)) ∧
    ∀ word words words' blocks blocks' free, Spells blocks free words →
      Spells blocks' free words' → SameOrder blocks blocks' →
        readArguments home (word :: words) = readArguments home (word :: words') := by
  refine ⟨fun raw => ⟨?_, ?_⟩, fun _ _ _ _ _ h => readArguments_eq_ok_iff h, ?_⟩
  · rintro ⟨a, ha⟩
    obtain ⟨word, words, blocks, free, rfl, hspells⟩ := exists_spells_of_readArguments ha
    have hsays := (readArguments_eq_ok_iff hspells).mp ha
    exact ⟨word, words, blocks, free, rfl, hspells, exists_says_iff.mp ⟨a, hsays⟩⟩
  · rintro ⟨word, words, blocks, free, rfl, hspells, haccepted⟩
    obtain ⟨a, hsays⟩ := exists_says_iff.mpr haccepted
    exact ⟨a, (readArguments_eq_ok_iff hspells).mpr hsays⟩
  · intro word words words' blocks blocks' free h h' hsame
    have hblocks := hsame.ofBlocks_eq free
    have hpackage : lastOf Block.package? blocks = lastOf Block.package? blocks' :=
      congrArg Settings.package hblocks
    have hlang : lastOf Block.lang? blocks = lastOf Block.lang? blocks' :=
      congrArg Settings.lang hblocks
    rw [readArguments_of_spells h, readArguments_of_spells h', hpackage, hlang, hblocks]

example : readArguments "/home"
    ["pattern", "--package", "py", "--root", "--strict", "a", "--", "--strict"] =
      .ok ⟨.python, none, .default, .pattern false "a --strict"⟩ := by decide

end CodePattern
