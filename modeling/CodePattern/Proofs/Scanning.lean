import CodePattern.Handle
import CodePattern.Proofs.Lossless
import CodePattern.Proofs.PathOrder

/-! Scanning a directory. A scan parses each file that a walk found and that is neither
passed over nor of another language, in the order of the paths, just as if that file alone
were asked for. Files that cannot be parsed are left out. -/

namespace CodePattern

namespace Language

theorem family_ofInterpreterLine? {content : List Char} {dialect : Language}
    (h : ofInterpreterLine? content = some dialect) : dialect.family = .python := by
  unfold ofInterpreterLine? at h
  split at h
  · split_ifs at h <;> cases h <;> rfl
  · cases h

/-- An interpreter line does not lead away from the family that the extension tells. -/
theorem family_of_detect {path : Path} {content : List Char} {extension : String}
    {byExtension lang : Language} (hextension : path.extensionText? = some extension)
    (hby : ofExtension? extension = some byExtension) (h : detect path content = some lang) :
    lang.family = byExtension.family := by
  rw [detect, hextension, Option.bind_some, hby] at h
  split at h
  · next dialect hpython hline =>
    obtain rfl := Option.some.inj h
    obtain rfl := Option.some.inj hpython
    exact family_ofInterpreterLine? hline
  · next hsome _ =>
    obtain rfl := Option.some.inj h
    obtain rfl := Option.some.inj hsome
    rfl
  · next hnone => cases hnone

end Language

theorem Package.provides_iff {package : Package} {lang : Language} :
    package.provides lang = true ↔ package.family = lang.family := by
  cases package <;> cases lang <;> decide

namespace Scan

variable {package : Package} {root : Path}

/-- A name that ends like that of a package's metadata, or is one of those passed over. -/
def PassedOver (name : FileName) : Prop :=
  FileName.ofText metadataEnding <:+ name ∨ ∃ s ∈ passedOver, name = FileName.ofText s

instance : DecidablePred PassedOver := fun name =>
  inferInstanceAs (Decidable (FileName.ofText metadataEnding <:+ name ∨ _))

theorem isPassedOver_iff {name : FileName} : isPassedOver name = true ↔ PassedOver name := by
  have hending : ∀ c ∈ metadataEnding.toList, IsPlain c := forall_isPlain (by decide)
  have hall : ∀ s ∈ passedOver, s.toList.all (fun c => decide (IsPlain c)) = true := by decide
  have hnames : ∀ s ∈ passedOver, ∀ c ∈ s.toList, IsPlain c :=
    fun s hs => forall_isPlain (hall s hs)
  have hlisted : passedOver.any (·.toList == decodeLossy name) = true ↔
      ∃ s ∈ passedOver, name = FileName.ofText s := by
    rw [List.any_eq_true]
    refine exists_congr fun s => and_congr_right fun hs => ?_
    rw [beq_iff_eq, eq_comm, decodeLossy_eq_iff (hnames s hs)]
    rfl
  rw [isPassedOver, Bool.or_eq_true, List.isSuffixOf_iff_suffix, hlisted,
    suffix_decodeLossy_iff hending]
  rfl

/-- A regular file that no component below the root passes over, and whose extension, if it
has one that is UTF-8, belongs to the package. -/
structure Eligible (package : Package) (root : Path) (f : Found) : Prop where
  isFile : f.isFile = true
  not_passedOver : ∀ c ∈ root.below f.path, ¬ PassedOver c.text
  extension : ∀ extension, f.path.extensionText? = some extension →
    ∃ lang, Language.ofExtension? extension = some lang ∧ package.provides lang = true

theorem isWanted_iff {path : Path} : isWanted package path = true ↔
    ∀ extension, path.extensionText? = some extension →
      ∃ lang, Language.ofExtension? extension = some lang ∧ package.provides lang = true := by
  rw [isWanted]
  cases path.extensionText? with
  | none => simp
  | some extension => simp [Option.any_eq_true]

theorem eligible_iff {f : Found} : Eligible package root f ↔
    (f.isFile && !(root.below f.path).any (isPassedOver ·.text)) = true ∧
      isWanted package f.path = true := by
  rw [isWanted_iff, Bool.and_eq_true, Bool.not_eq_true', List.any_eq_false]
  simp only [isPassedOver_iff]
  exact ⟨fun h => ⟨⟨h.isFile, h.not_passedOver⟩, h.extension⟩,
    fun h => ⟨h.1.1, h.1.2, h.2⟩⟩

instance (package : Package) (root : Path) : DecidablePred (Eligible package root) :=
  fun _ => decidable_of_iff _ eligible_iff.symm

theorem choose_eq (package : Package) (root : Path) (found : List Found) :
    choose package root found = (found.filter (Eligible package root ·)).map (·.path) := by
  rw [choose, List.filter_map, List.filter_filter]
  congr 1
  refine List.filter_congr fun f _ => ?_
  rw [Function.comp_apply, Bool.and_comm]
  exact Bool.eq_iff_iff.mpr (by simp [eligible_iff])

/-- A path comes into the sorted list right before the first path that is not before it. -/
theorem exists_place (p : Path) (ps : List Path) : ∃ s t,
    (p :: ps).mergeSort Path.le = s ++ p :: t ∧ ps.mergeSort Path.le = s ++ t ∧
      (∀ q ∈ s, p.le q = false) ∧ ∀ q ∈ t, p.le q = true := by
  obtain ⟨s, t, hcons, hrest, hs⟩ := List.mergeSort_cons Path.le_trans Path.le_total p ps
  have hsorted : (s ++ p :: t).Pairwise (fun p q => p.le q = true) :=
    hcons ▸ List.pairwise_mergeSort Path.le_trans Path.le_total _
  have hafter := (List.pairwise_cons.mp (List.pairwise_append.mp hsorted).2.1).1
  exact ⟨s, t, hcons, hrest, by simpa using hs, hafter⟩

theorem place_unique {p : Path} {s t s' t' : List Path} (h : s ++ t = s' ++ t')
    (hs : ∀ q ∈ s, p.le q = false) (ht : ∀ q ∈ t, p.le q = true)
    (hs' : ∀ q ∈ s', p.le q = false) (ht' : ∀ q ∈ t', p.le q = true) : s = s' := by
  have hkept : ∀ {qs : List Path}, (∀ q ∈ qs, p.le q = false) → qs.filter (!p.le ·) = qs := by
    intro qs hqs
    exact List.filter_eq_self.mpr fun q hq => by rw [hqs q hq, Bool.not_false]
  have hdropped : ∀ {qs : List Path}, (∀ q ∈ qs, p.le q = true) → qs.filter (!p.le ·) = [] := by
    intro qs hqs
    exact List.filter_eq_nil_iff.mpr fun q hq => by simp [hqs q hq]
  have hfilter : (s ++ t).filter (!p.le ·) = (s' ++ t').filter (!p.le ·) := by rw [h]
  rw [List.filter_append, List.filter_append, hkept hs, hkept hs', hdropped ht, hdropped ht',
    List.append_nil, List.append_nil] at hfilter
  exact hfilter

/-- Leaving out paths does not change the order of the others. -/
theorem mergeSort_filter (keep : Path → Bool) (ps : List Path) :
    (ps.filter keep).mergeSort Path.le = (ps.mergeSort Path.le).filter keep := by
  induction ps with
  | nil => simp
  | cons p ps ih =>
    obtain ⟨s, t, hcons, hrest, hs, ht⟩ := exists_place p ps
    rw [hrest, List.filter_append] at ih
    rw [hcons, List.filter_append, List.filter_cons, List.filter_cons]
    by_cases hp : keep p = true
    · obtain ⟨s', t', hcons', hrest', hs', ht'⟩ := exists_place p (ps.filter keep)
      have hsplit : s.filter keep ++ t.filter keep = s' ++ t' := ih.symm.trans hrest'
      have hplace : s.filter keep = s' :=
        place_unique hsplit (fun q hq => hs q (List.mem_of_mem_filter hq))
          (fun q hq => ht q (List.mem_of_mem_filter hq)) hs' ht'
      have hafter : t.filter keep = t' := by
        rw [hplace] at hsplit
        exact List.append_cancel_left hsplit
      rw [if_pos hp, if_pos hp, hcons', hplace, hafter]
    · rw [if_neg hp, if_neg hp, ih]

theorem select_perm (package : Package) (root : Path) (found : List Found) :
    (select package root found).Perm
      ((found.filter (Eligible package root ·)).map (·.path)) := by
  rw [← choose_eq]
  exact List.mergeSort_perm _ _

theorem select_sorted (package : Package) (root : Path) (found : List Found) :
    (select package root found).Pairwise (fun p q => p.key ≤ q.key) :=
  (List.pairwise_mergeSort Path.le_trans Path.le_total _).imp fun hle => Path.le_iff.mp hle

end Scan

namespace Handle

variable {h : Handle} {t : FileTree} {path : Path} {target : Target}

/-- A file is parsed if it can be read, is of a language that the package provides and the
grammar takes it. -/
theorem parseTarget_eq_ok_iff : h.parseTarget t path = .ok target ↔
    ∃ content lang, readTarget t h.config path = .ok content ∧
      Language.detect path content = some lang ∧ h.package.provides lang = true ∧
      Target.parse h.grammar lang path content = .ok target := by
  rw [parseTarget]
  cases hread : readTarget t h.config path with
  | error e => simp [bind, Except.bind]
  | ok content =>
    cases hlang : Language.detect path content with
    | none => simp [bind, Except.bind, hlang, throw, throwThe, MonadExceptOf.throw]
    | some lang =>
      by_cases hprovides : h.package.provides lang = true
      · cases hparse : Target.parse h.grammar lang path content <;>
          simp [bind, Except.bind, hlang, ensureProvides, parseContent, hprovides, hparse]
      · simp [bind, Except.bind, hlang, ensureProvides, hprovides]

theorem path_of_parseTarget (htarget : h.parseTarget t path = .ok target) :
    target.path = path.shown := by
  obtain ⟨content, lang, -, -, -, hparse⟩ := parseTarget_eq_ok_iff.mp htarget
  rw [Target.parse] at hparse
  split at hparse
  · cases hparse
  · obtain rfl := Except.ok.inj hparse
    rfl

theorem targetAt?_eq_some_iff : h.targetAt? t path = some target ↔
    ∃ content lang, readTarget t h.config path = .ok content ∧
      Language.detect path content = some lang ∧ h.package.provides lang = true ∧
      Target.parse h.grammar lang path content = .ok target := by
  rw [targetAt?]
  cases hread : readTarget t h.config path with
  | error e => simp
  | ok content =>
    cases hlang : Language.detect path content with
    | none => simp [hlang]
    | some lang =>
      by_cases hprovides : h.package.provides lang = true
      · cases hparse : Target.parse h.grammar lang path content <;>
          simp [hlang, Option.filter, hprovides, hparse, Except.toOption]
      · simp [hlang, Option.filter, hprovides]

theorem targetAt?_eq (h : Handle) (t : FileTree) (path : Path) :
    h.targetAt? t path = (h.parseTarget t path).toOption := by
  refine Option.ext fun target => ?_
  rw [targetAt?_eq_some_iff, ← parseTarget_eq_ok_iff]
  cases h.parseTarget t path <;> simp [Except.toOption]

theorem parseFound_of_isDirectory {root : Path} (hroot : t.isDirectory root = true)
    (found : List Found) : h.parseFound t root found =
      .ok ((Scan.select h.package root found).filterMap fun p => (h.parseTarget t p).toOption) := by
  have htargets : h.targetAt? t = fun p => (h.parseTarget t p).toOption :=
    funext (h.targetAt?_eq t)
  rw [parseFound, if_pos hroot, parseFiles, htargets]

theorem parseFound_filter {root : Path} (hroot : t.isDirectory root = true) {found : List Found}
    {keep : Found → Bool} (hkeep : ∀ f ∈ found, keep f = false →
      ∀ target, h.parseTarget t f.path ≠ .ok target) :
    h.parseFound t root (found.filter keep) = h.parseFound t root found := by
  let good (p : Path) : Bool := (h.parseTarget t p).toOption.isSome
  have hgood : ∀ ps : List Path, ps.filterMap (fun p => (h.parseTarget t p).toOption) =
      (ps.filter good).filterMap fun p => (h.parseTarget t p).toOption := by
    intro ps
    rw [List.filterMap_filter]
    refine List.filterMap_congr fun p _ => ?_
    cases hp : (h.parseTarget t p).toOption <;> simp [good, hp]
  have hchosen : (Scan.choose h.package root (found.filter keep)).filter good =
      (Scan.choose h.package root found).filter good := by
    rw [Scan.choose_eq, Scan.choose_eq, List.filter_map, List.filter_map, List.filter_filter,
      List.filter_filter, List.filter_filter]
    congr 1
    refine List.filter_congr fun f hf => ?_
    cases hk : keep f with
    | true => simp
    | false =>
      have hbad : good f.path = false := by
        cases hp : h.parseTarget t f.path with
        | error e => simp [good, hp, Except.toOption]
        | ok target => exact absurd hp (hkeep f hf hk target)
      simp [hbad]
  rw [parseFound_of_isDirectory hroot, parseFound_of_isDirectory hroot, hgood, Scan.select,
    ← Scan.mergeSort_filter, hchosen, Scan.mergeSort_filter, ← Scan.select, ← hgood]

/-- A scan takes the eligible files in the order of their components, those that are equal in
the order of the walk, and gives what a request for each of them alone gives, as far as
that does not fail. -/
theorem directory_targets (h : Handle) {t : FileTree} {root : Path}
    (hroot : t.isDirectory root = true) (found : List Found) :
    let eligible := (found.filter (Scan.Eligible h.package root ·)).map (·.path)
    let files := Scan.select h.package root found
    files.Perm eligible ∧ files.Pairwise (fun p q => p.key ≤ q.key) ∧
    (∀ ps : List Path, ps.Pairwise (fun p q => p.key ≤ q.key) → ps.Sublist eligible →
      ps.Sublist files) ∧
    h.parseFound t root found =
      .ok (files.filterMap fun p => (h.parseTarget t p).toOption) ∧
    (∀ keep : Found → Bool, (∀ f ∈ found, keep f = false →
        ∀ target, h.parseTarget t f.path ≠ .ok target) →
      h.parseFound t root (found.filter keep) = h.parseFound t root found) ∧
    h.parseDirectory t root = h.parseFound t root (t.walk root) := by
  intro eligible files
  have hstable : ∀ ps : List Path, ps.Pairwise (fun p q => p.key ≤ q.key) →
      ps.Sublist eligible → ps.Sublist files := by
    intro ps hps hsub
    have hchosen : ps.Sublist (Scan.choose h.package root found) := Scan.choose_eq .. ▸ hsub
    exact List.sublist_mergeSort Path.le_trans Path.le_total
      (hps.imp fun hle => Path.le_iff.mpr hle) hchosen
  exact ⟨Scan.select_perm .., Scan.select_sorted .., hstable, parseFound_of_isDirectory hroot found,
    fun _ hkeep => parseFound_filter hroot hkeep, rfl⟩

def interpreterLine : String := "#!/usr/bin/env python3\n"

def interpreterTree : Rose GrammarNode :=
  .node ⟨"module", true, false, false, 0, 23, none⟩
    [.node ⟨"comment", true, false, false, 0, 22, none⟩ []]

def parseInterpreterLine (source : List Char) : Except ParseFailure (Rose GrammarNode) :=
  if source = interpreterLine.toList then .ok interpreterTree else .error (.outOfTime .python)

def denied : AccessFault := .system 13 "Permission denied"

/-- Scripts by several names, one with an extension that is not UTF-8, one that cannot be read,
and a file for which the time does not suffice. -/
def scripts : FileTree :=
  let script : FileNode := .file interpreterLine.toUTF8
  let work : List (FileName × FileNode) :=
    [(.ofText "a", .directory [(.ofText "run", script)]), (.ofText "a-b.py", script),
      (.ofText "build", script), (.ofText "locked.py", .regular 23 (.error denied)),
      (.ofText "long.py", .file "x".toUTF8), (FileName.ofText "t." ++ [255], script),
      (.ofText "w.txt", script)]
  ⟨.directory [(.ofText "work", .directory work)], [.ofText "work"]⟩

def scriptHandle : Handle := ⟨.python, .default, .ofFamily .python parseInterpreterLine⟩

/-- A path that is not UTF-8. -/
def foreign : Path := ⟨(Path.ofText "./t.").octets ++ [255]⟩

theorem walk_scripts : scripts.walk "." =
    [⟨".", false⟩, ⟨"./a", false⟩, ⟨"./a/run", true⟩, ⟨"./a-b.py", true⟩, ⟨"./build", true⟩,
      ⟨"./locked.py", true⟩, ⟨"./long.py", true⟩, ⟨foreign, true⟩, ⟨"./w.txt", true⟩] := by
  decide +kernel

theorem select_scripts : Scan.select .python "." (scripts.walk ".") =
    (["./a/run", "./a-b.py", "./locked.py", "./long.py", foreign] : List Path) := by
  have hchosen : Scan.choose .python "." (scripts.walk ".") =
      (["./a/run", "./a-b.py", "./locked.py", "./long.py", foreign] : List Path) := by
    rw [walk_scripts]
    decide +kernel
  rw [Scan.select, hchosen]
  exact List.mergeSort_of_pairwise (by decide)

theorem directory_targets_scripts :
    scripts.isDirectory "." = true ∧
    ⟨"./locked.py", true⟩ ∈ scripts.walk "." ∧
    readTarget scripts .default "./locked.py" = .error (.unreadable "./locked.py" denied) ∧
    (RequestError.unreadable "./locked.py" denied).explain =
      "cannot read ./locked.py: Permission denied (os error 13)" ∧
    ∃ targets, scriptHandle.parseDirectory scripts "." = .ok targets ∧
      targets.map (fun t => (t.lang, t.path)) =
        [(.python3, "./a/run"), (.python3, "./a-b.py"), (.python3, "./t.\uFFFD")] := by
  have hroot : scripts.isDirectory "." = true := by decide
  have hlocked : ⟨"./locked.py", true⟩ ∈ scripts.walk "." := by
    rw [walk_scripts]
    decide
  obtain ⟨-, -, -, htargets, -, hwalk⟩ := scriptHandle.directory_targets hroot (scripts.walk ".")
  refine ⟨hroot, hlocked, by decide +kernel, by decide +kernel, _, hwalk.trans htargets, ?_⟩
  rw [show scriptHandle.package = .python from rfl, select_scripts]
  decide +kernel

/-- A file of the walk that can be parsed is not missed, if its name and those of the
directories above it are not passed over and its extension, if it has one that is UTF-8, is
one that tells a language. -/
theorem recognised_scanned {root : Path} {found : List Found} {f : Found}
    (hroot : t.isDirectory root = true) (hf : f ∈ found) (hfile : f.isFile = true)
    (hnames : ∀ c ∈ root.below f.path, ¬ Scan.PassedOver c.text)
    (hextension : ∀ extension, f.path.extensionText? = some extension →
      (Language.ofExtension? extension).isSome = true)
    (htarget : h.parseTarget t f.path = .ok target) :
    ∃ targets, h.parseFound t root found = .ok targets ∧ target ∈ targets := by
  obtain ⟨content, lang, -, hlang, hprovides, -⟩ := parseTarget_eq_ok_iff.mp htarget
  have heligible : Scan.Eligible h.package root f := by
    refine ⟨hfile, hnames, fun extension he => ?_⟩
    obtain ⟨byExtension, hby⟩ := Option.isSome_iff_exists.mp (hextension extension he)
    have hfamily := Language.family_of_detect he hby hlang
    exact ⟨byExtension, hby, Package.provides_iff.mpr
      (hfamily ▸ Package.provides_iff.mp hprovides)⟩
  have hmem : f.path ∈ Scan.select h.package root found := by
    refine (Scan.select_perm h.package root found).mem_iff.mpr (List.mem_map_of_mem ?_)
    exact List.mem_filter.mpr ⟨hf, by simpa using heligible⟩
  refine ⟨_, parseFound_of_isDirectory hroot found, ?_⟩
  exact List.mem_filterMap.mpr ⟨f.path, hmem, by rw [htarget]; rfl⟩

theorem recognised_scanned_run :
    let f : Found := ⟨"./a/run", true⟩
    scripts.isDirectory "." = true ∧ f ∈ scripts.walk "." ∧
      (∀ c ∈ Path.below "." f.path, ¬ Scan.PassedOver c.text) ∧ f.path.extensionText? = none ∧
      ∃ target, scriptHandle.parseTarget scripts f.path = .ok target ∧
        target.lang = .python3 ∧
        ∃ targets, scriptHandle.parseFound scripts "." (scripts.walk ".") = .ok targets ∧
          target ∈ targets := by
  intro f
  have hroot : scripts.isDirectory "." = true := by decide
  have hf : f ∈ scripts.walk "." := by
    rw [walk_scripts]
    decide
  have hnames : ∀ c ∈ Path.below "." f.path, ¬ Scan.PassedOver c.text := by decide
  have hextension : f.path.extensionText? = none := by decide
  obtain ⟨target, htarget⟩ : ∃ target, scriptHandle.parseTarget scripts f.path = .ok target :=
    ⟨_, rfl⟩
  have hlang : (scriptHandle.parseTarget scripts f.path).map (·.lang) = .ok .python3 := rfl
  rw [htarget] at hlang
  exact ⟨hroot, hf, hnames, hextension, target, htarget, Except.ok.inj hlang,
    recognised_scanned hroot hf rfl hnames (by simp [hextension]) htarget⟩

/-- Two scripts are parsed when they are asked for and missed by a scan. One has an extension
that tells no language, the other the name of a directory that is passed over. -/
theorem scripts_missed :
    scripts.isDirectory "." = true ∧
    ∃ targets, scriptHandle.parseDirectory scripts "." = .ok targets ∧
      ∀ path ∈ [Path.ofText "./w.txt", Path.ofText "./build"],
        ⟨path, true⟩ ∈ scripts.walk "." ∧
        (∀ c ∈ (Path.below "." path).dropLast, ¬ Scan.PassedOver c.text) ∧
        ∃ target, scriptHandle.parseTarget scripts path = .ok target ∧ target ∉ targets := by
  have hpaths : (scriptHandle.parseFiles scripts
      (Scan.select .python "." (scripts.walk "."))).map (·.path) =
        ["./a/run", "./a-b.py", "./t.\uFFFD"] := by
    rw [select_scripts]
    decide +kernel
  have hwalk : ∀ path ∈ [Path.ofText "./w.txt", Path.ofText "./build"],
      ⟨path, true⟩ ∈ scripts.walk "." := by
    rw [walk_scripts]
    decide
  have hnames : ∀ path ∈ [Path.ofText "./w.txt", Path.ofText "./build"],
      ∀ c ∈ (Path.below "." path).dropLast, ¬ Scan.PassedOver c.text := by decide
  have hparsed : ∀ path ∈ [Path.ofText "./w.txt", Path.ofText "./build"],
      (scriptHandle.parseTarget scripts path).isOk = true := by decide +kernel
  have hshown : ∀ path ∈ [Path.ofText "./w.txt", Path.ofText "./build"],
      path.shown ∉ ["./a/run", "./a-b.py", "./t.\uFFFD"] := by decide +kernel
  refine ⟨by decide, _, rfl, fun path hpath => ⟨hwalk path hpath, hnames path hpath, ?_⟩⟩
  cases htarget : scriptHandle.parseTarget scripts path with
  | error e =>
    have hok := hparsed path hpath
    rw [htarget] at hok
    cases hok
  | ok target =>
    refine ⟨target, rfl, fun hmem => hshown path hpath ?_⟩
    rw [← path_of_parseTarget htarget, ← hpaths]
    exact List.mem_map_of_mem hmem

end Handle

end CodePattern
