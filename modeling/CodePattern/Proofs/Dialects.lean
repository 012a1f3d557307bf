import CodePattern.Proofs.ErrorLines
import CodePattern.Proofs.Scanning

/-! Python's dialects share one grammar. What a dialect rejects is added to the errors of a
file and changes nothing else about it, and a file parsed in the dialect that its beginning
names is parsed as if the dialect had been asked for. -/

namespace CodePattern

namespace Python

/-- The nodes that a dialect does not know. Plain Python knows all. -/
def Rejects (lang : Language) (n : AstNode) : Prop :=
  lang = .python3 ∧ (n.kind = "print_statement" ∨ n.kind = "exec_statement") ∨
    lang = .python2 ∧ (n.kind = "nonlocal_statement" ∨ n.kind = "await")

instance (lang : Language) : DecidablePred (Rejects lang) :=
  fun n => inferInstanceAs (Decidable (lang = .python3 ∧ (n.kind = _ ∨ n.kind = _) ∨ _))

theorem contains_rejected (lang : Language) (n : AstNode) :
    (rejected lang).1.contains n.kind = decide (Rejects lang n) := by
  cases lang <;> simp [rejected, Rejects, onlyInTwo, onlyInThree]

/-- A dialect reports the nodes it does not know, in preorder, each at its own place. -/
theorem spans_dialectErrors (lang : Language) (ast : Ast) :
    (dialectErrors lang ast).map (·.span) =
      (ast.nodes.filter (fun n => Rejects lang n)).map (·.span) := by
  simp only [dialectErrors, Ast.findAll, contains_rejected, List.map_map]
  rfl

theorem dialectErrors_python (ast : Ast) : dialectErrors .python ast = [] := by
  simp [dialectErrors, Ast.findAll, rejected]

end Python

namespace Handle

variable {h : Handle} {files : FileTree} {file : Path} {t : Target}

theorem lang_of_parse {g : Grammar} {lang : Language} {content : List Char}
    (hparse : Target.parse g lang file content = .ok t) : t.lang = lang := by
  obtain ⟨tree, -, rfl⟩ := Target.parse_eq_ok hparse
  rfl

/-- A language that was detected can as well be asked for. -/
theorem parseTargetAs_of_parseTarget (ht : h.parseTarget files file = .ok t) :
    h.parseTargetAs files t.lang file = .ok t := by
  obtain ⟨content, lang, hread, -, hprovides, hparse⟩ := parseTarget_eq_ok_iff.mp ht
  rw [lang_of_parse hparse, parseTargetAs]
  simp [bind, Except.bind, ensureProvides, hprovides, hread, parseContent, hparse]

end Handle

namespace Target

/-- All dialects fail alike, or their targets differ in what the dialects add. -/
theorem parse_dialects (parser : List Char → Except ParseFailure (Rose GrammarNode))
    (path : Path) (content : List Char) :
    (∃ failure, ∀ lang, parse (.ofFamily .python parser) lang path content = .error failure) ∨
      ∃ ast common, ∀ lang, parse (.ofFamily .python parser) lang path content =
        .ok ⟨lang, path.shown, ast, common ++ Python.dialectErrors lang ast,
          .ofErrors (lines content).length.toUInt32
            (common ++ Python.dialectErrors lang ast)⟩ := by
  simp only [parse, Grammar.ofFamily]
  cases parser content with
  | error failure => exact .inl ⟨failure, fun _ => rfl⟩
  | ok tree =>
    let c := Conversion.of .python .target content content (.identity (width content))
    exact .inr ⟨(c.run tree).ast, (c.run tree).errors, fun _ => rfl⟩

/-- No error touches a line before the first, as long as line numbers fit in 32 bits. -/
theorem zero_not_mem_touched {parser : List Char → Except ParseFailure (Rose GrammarNode)}
    {family : Family} {lang : Language} {path : Path} {content : List Char} {t : Target}
    (h : parse (.ofFamily family parser) lang path content = .ok t)
    (hlines : lineOf content < UInt32.size) : 0 ∉ ParseStats.touched t.errors := by
  intro hzero
  have hrejected := Grammar.rejectsNodes_ofFamily family parser lang
  have hline := touched_subset hrejected h hlines hzero
  simp at hline

/-- A dialect adds to the errors of a file the nodes it does not know. So it counts no fewer
erroneous lines, unless there is some error anyway and with it errors touch all line numbers of 32
bits, 0 among them, so that the count starts anew. That takes a file with as many lines. -/
theorem dialects_add_errors (parser : List Char → Except ParseFailure (Rose GrammarNode))
    (path : Path) (content : List Char) :
    let parse := fun lang => parse (.ofFamily .python parser) lang path content
    ((∃ failure, ∀ lang, parse lang = .error failure) ∨
      ∃ ast common total, ∀ lang, ∃ t added, parse lang = .ok t ∧ t.lang = lang ∧
        t.path = path.shown ∧ t.ast = ast ∧ t.stats.totalLines = total ∧
        t.errors = common ++ added ∧
        added.map (·.span) =
          (ast.nodes.filter (fun n => Python.Rejects lang n)).map (·.span)) ∧
    (∀ lang t u, parse .python = .ok t → parse lang = .ok u →
      (t.stats.errorLines ≤ u.stats.errorLines ↔
        (∃ line < UInt32.size, line ∉ ParseStats.touched u.errors) ∨ t.stats.errorLines = 0)) ∧
    (∀ lang u, parse lang = .ok u → lineOf content < UInt32.size →
      0 ∉ ParseStats.touched u.errors) ∧
    ∀ (h : Handle) (files : FileTree) (file : Path) (t : Target),
      h.parseTarget files file = .ok t → h.parseTargetAs files t.lang file = .ok t := by
  intro parse
  refine ⟨?_, fun lang t u ht hu => ?_, fun _ _ hu hlines => zero_not_mem_touched hu hlines,
    fun h files file t => Handle.parseTargetAs_of_parseTarget⟩
  · rcases parse_dialects parser path content with hfails | ⟨ast, common, hok⟩
    · exact .inl hfails
    · exact .inr ⟨ast, common, (lines content).length.toUInt32, fun lang =>
        ⟨_, Python.dialectErrors lang ast, hok lang, rfl, rfl, rfl, rfl, rfl,
          Python.spans_dialectErrors lang ast⟩⟩
  · rcases parse_dialects parser path content with ⟨failure, hfails⟩ | ⟨ast, common, hok⟩
    · cases (hfails lang).symm.trans hu
    · obtain rfl := Except.ok.inj ((hok .python).symm.trans ht)
      obtain rfl := Except.ok.inj ((hok lang).symm.trans hu)
      refine ParseStats.errorLines_mono_iff _ _ fun e he => ?_
      rw [Python.dialectErrors_python, List.append_nil] at he
      exact List.mem_append_left _ he

def printTree : Rose GrammarNode :=
  .node ⟨"module", true, false, false, 0, 8, none⟩
    [.node ⟨"print_statement", true, false, false, 0, 7, none⟩
      [.node ⟨"print", false, false, false, 0, 5, none⟩ [],
        .node ⟨"integer", true, false, false, 6, 7, some "argument"⟩ []]]

def parsePrint (source : List Char) : Except ParseFailure (Rose GrammarNode) :=
  if source = "print 1\n".toList then .ok printTree else .error (.outOfTime .python)

/-- The print statement of one dialect is an error in the other. -/
theorem dialects_add_errors_print :
    let parse := fun lang => parse (.ofFamily .python parsePrint) lang "a.py" "print 1\n".toList
    ∃ t u, parse .python = .ok t ∧ parse .python3 = .ok u ∧ t.ast = u.ast ∧ t.errors = [] ∧
      u.errors = [⟨"Python 2 syntax in Python 3 code: print_statement", ⟨0, 7, 1, 0, 1, 7⟩⟩] ∧
      t.stats.errorLines ≤ u.stats.errorLines := by
  intro parse
  obtain ⟨-, hcount, hzero, -⟩ := dialects_add_errors parsePrint "a.py" "print 1\n".toList
  obtain ⟨t, u, ht, hu, hast, hnone, herrors⟩ : ∃ t u, parse .python = .ok t ∧
      parse .python3 = .ok u ∧ t.ast = u.ast ∧ t.errors = [] ∧
      u.errors = [⟨"Python 2 syntax in Python 3 code: print_statement", ⟨0, 7, 1, 0, 1, 7⟩⟩] :=
    ⟨_, _, rfl, rfl, rfl, by decide, by decide⟩
  have hfree := hzero .python3 u hu (by decide)
  exact ⟨t, u, ht, hu, hast, hnone, herrors,
    (hcount .python3 t u ht hu).mpr (.inl ⟨0, by decide, hfree⟩)⟩

/-- All lines but the last. -/
def garbage : GrammarNode := ⟨"ERROR", true, true, false, 0, UInt32.size - 2, none⟩

def lastPrint : GrammarNode :=
  ⟨"print_statement", true, false, false, UInt32.size - 1, UInt32.size - 1, none⟩

def garbageTree : Rose GrammarNode :=
  .node ⟨"module", true, false, false, 0, UInt32.size - 1, none⟩
    [.node garbage [], .node lastPrint []]

theorem errors_garbageTree (path : Path) (content : List Char) :
    let c := Conversion.of .python .target content content (.identity (width content))
    let parse := fun lang => parse (.ofFamily .python fun _ => .ok garbageTree) lang path content
    ∃ t u, parse .python = .ok t ∧ parse .python3 = .ok u ∧
      t.errors.map (·.span) = [c.span garbage] ∧
      u.errors.map (·.span) = [c.span garbage, c.span lastPrint] :=
  ⟨_, _, rfl, rfl, rfl, rfl⟩

theorem lines_garbageTree :
    let content := List.replicate (UInt32.size - 1) '\n'
    let c := Conversion.of .python .target content content (.identity (width content))
    ((c.span garbage).startLine.toNat = 1 ∧ (c.span garbage).endLine.toNat = UInt32.size - 1) ∧
      (c.span lastPrint).startLine.toNat = 0 ∧ (c.span lastPrint).endLine.toNat = 0 := by
  intro content c
  have hgarbage : c.span garbage =
      ⟨0, UInt32.size - 2, 1, 0, (1 + (UInt32.size - 2)).toUInt32, 0⟩ :=
    Conversion.span_lineFeeds (Nat.zero_le _) (by decide)
  have hprint : c.span lastPrint = ⟨UInt32.size - 1, UInt32.size - 1, 0, 0, 0, 0⟩ :=
    Conversion.span_lineFeeds (Nat.le_refl _) (Nat.le_refl _)
  rw [hgarbage, hprint]
  decide

/-- In a file of `2 ^ 32 - 1` line feeds an empty print statement at the end touches the line 0.
If there are errors on all other lines, none is counted any more. -/
theorem errorLines_start_anew :
    let content := List.replicate (UInt32.size - 1) '\n'
    let parse := fun lang => parse (.ofFamily .python fun _ => .ok garbageTree) lang "a.py" content
    garbageTree.Nested GrammarNode.Within GrammarNode.Before ∧
    (∀ n ∈ garbageTree.preorder, n.stop ≤ width content) ∧
    ∃ t u, parse .python = .ok t ∧ parse .python3 = .ok u ∧
      t.stats.errorLines = 4294967295 ∧ u.stats.errorLines = 0 ∧
      ¬ t.stats.errorLines ≤ u.stats.errorLines := by
  intro content parse
  obtain ⟨⟨hfirst, hlast⟩, hprintFirst, hprintLast⟩ := lines_garbageTree
  obtain ⟨t, u, ht, hu, hterrors, huerrors⟩ := errors_garbageTree "a.py" content
  have htouched : ParseStats.touched t.errors = Finset.Icc 1 (UInt32.size - 1) := by
    ext n
    rw [ParseStats.mem_touched_iff_span, hterrors, Finset.mem_Icc]
    simp only [List.mem_singleton, exists_eq_left, content, hfirst, hlast]
  have hfull : ∀ line < UInt32.size, line ∈ ParseStats.touched u.errors := by
    intro line hline
    rw [ParseStats.mem_touched_iff_span, huerrors]
    by_cases hzero : line = 0
    · refine ⟨_, List.mem_cons_of_mem _ List.mem_cons_self, ?_⟩
      simp only [content, hprintFirst, hprintLast]
      omega
    · refine ⟨_, List.mem_cons_self, ?_⟩
      simp only [content, hfirst, hlast]
      omega
  have htlines : t.stats.errorLines = 4294967295 := by
    obtain ⟨total, htstats⟩ := stats_of_parse ht
    rw [htstats, ParseStats.errorLines_eq, htouched, Nat.card_Icc]
    rfl
  have hulines : u.stats.errorLines = 0 := by
    obtain ⟨total, hustats⟩ := stats_of_parse hu
    rw [hustats, ParseStats.errorLines_of_full total hfull]
  have hstops : ∀ n ∈ garbageTree.preorder, n.stop ≤ width content := by
    rw [show width content = UInt32.size - 1 from width_lineFeeds _]
    decide
  refine ⟨by decide, hstops, t, u, ht, hu, htlines, hulines, ?_⟩
  rw [htlines, hulines]
  decide

end Target

end CodePattern
