import CodePattern.Proofs.Lexical

/-! Strings and comments pass through the scan unchanged, each as a whole. -/

namespace CodePattern

theorem editsFrom_of_copied {segments : List Segment} (h : ∀ s ∈ segments, ∃ t, s = .copied t)
    (newStart oldStart : Nat) : editsFrom newStart oldStart segments = [] := by
  induction segments generalizing newStart oldStart with
  | nil => rfl
  | cons s segments ih =>
    obtain ⟨t, rfl⟩ := h s List.mem_cons_self
    exact ih (fun s hs => h s (List.mem_cons_of_mem _ hs)) _ _

theorem copied_of_editsFrom {segments : List Segment} {newStart oldStart : Nat}
    (h : editsFrom newStart oldStart segments = []) : ∀ s ∈ segments, ∃ t, s = .copied t := by
  induction segments generalizing newStart oldStart with
  | nil => simp
  | cons s segments ih =>
    cases s with
    | copied text => exact List.forall_mem_cons.mpr ⟨⟨text, rfl⟩, ih h⟩
    | replaced old new => cases h

theorem textAfter_of_copied {segments : List Segment} (h : ∀ s ∈ segments, ∃ t, s = .copied t) :
    textAfter segments = textBefore segments := by
  induction segments with
  | nil => rfl
  | cons s segments ih =>
    obtain ⟨t, rfl⟩ := h s List.mem_cons_self
    rw [textAfter_cons, textBefore_cons, ih fun s hs => h s (List.mem_cons_of_mem _ hs)]
    rfl

namespace Placeholder

open Lexical

/-- The scan passes over the text without a replacement, from one region to another. -/
def Copies (family : Family) (region : Region) (text : List Char) (region' : Region)
    (rest : List Char) : Prop :=
  ∃ segments, scan family 0 region (text ++ rest) = segments ++ scan family 0 region' rest ∧
    (∀ s ∈ segments, ∃ t, s = Segment.copied t) ∧ textBefore segments = text

variable {family : Family} {region region' region'' : Region} {text rest : List Char}

theorem Copies.refl (family : Family) (region : Region) (rest : List Char) :
    Copies family region [] region rest := ⟨[], rfl, by simp, rfl⟩

theorem Copies.trans {more : List Char} (h : Copies family region text region' (more ++ rest))
    (h' : Copies family region' more region'' rest) :
    Copies family region (text ++ more) region'' rest := by
  obtain ⟨segments, he, hcopied, rfl⟩ := h
  obtain ⟨segments', he', hcopied', rfl⟩ := h'
  refine ⟨segments ++ segments', ?_, ?_, by simp [textBefore]⟩
  · rw [List.append_assoc, he, he', List.append_assoc]
  · intro s hs
    rcases List.mem_append.mp hs with hs | hs
    · exact hcopied s hs
    · exact hcopied' s hs

theorem Copies.of_step {c : Char} {cs : List Char} {more : Nat}
    (h : step family region c cs = .copy c cs more region') :
    Copies family region (c :: cs.take more) region' (cs.drop more) := by
  refine ⟨[.copied (c :: cs.take more)], ?_, by simp, by simp [textBefore]⟩
  rw [List.cons_append, List.take_append_drop, scan, h, ← scan_covered]
  rfl

theorem Copies.of_step_zero {c : Char} {cs : List Char}
    (h : step family region c cs = .copy c cs 0 region') :
    Copies family region [c] region' cs := of_step h

theorem startsWith_iff {lead cs : List Char} : startsWith lead cs = true ↔ lead <+: cs := by
  rw [startsWith, List.isPrefixOf_iff_prefix]

theorem opens_copies {d after : List Char} (h : Opens family d after) :
    ∃ q n, d = List.replicate (n + 1) q ∧ q ≠ '\\' ∧
      Copies family .code d (.quoted q (n + 1)) after := by
  obtain ⟨q, hq, ⟨rfl, rfl⟩ | ⟨rfl, hno⟩⟩ := h
  · refine ⟨q, 2, rfl, by rcases hq with rfl | rfl <;> decide, ?_⟩
    have hstep : step .python .code q (q :: q :: after) =
        .copy q (q :: q :: after) 2 (.quoted q 3) := by
      simp [step, codeStep, hq, quoteStep, startsWith]
    exact .of_step hstep
  · refine ⟨q, 0, rfl, by rcases hq with rfl | rfl <;> decide, ?_⟩
    have hstep : step family .code q after = .copy q after 0 (.quoted q 1) := by
      simp only [step, codeStep, hq, if_true, quoteStep, startsWith_iff, hno, if_false]
    exact .of_step_zero hstep

theorem inside_copies {q : Char} {n : Nat} {body : List Char}
    (h : Inside (List.replicate (n + 1) q) body rest) :
    Copies family (.quoted q (n + 1)) body (.quoted q (n + 1)) rest := by
  induction h with
  | nil rest => exact .refl _ _ _
  | @plain c body rest hc hd _ ih =>
    have hclose : ¬ (c = q ∧ startsWith (List.replicate n q) (body ++ rest) = true) := by
      rintro ⟨rfl, hs⟩
      exact hd (List.cons_prefix_cons.mpr ⟨rfl, startsWith_iff.mp hs⟩)
    have hstep : step family (.quoted q (n + 1)) c (body ++ rest) =
        .copy c (body ++ rest) 0 (.quoted q (n + 1)) := by
      simp only [step, quotedStep, hc, if_false, Nat.add_sub_cancel, hclose]
    exact (Copies.of_step_zero hstep).trans ih
  | @hidden c body rest _ ih =>
    have hstep : step family (.quoted q (n + 1)) '\\' (c :: (body ++ rest)) =
        .copy '\\' (c :: (body ++ rest)) 1 (.quoted q (n + 1)) := by
      simp only [step, quotedStep, if_true]
    exact (Copies.of_step hstep).trans ih
  | last =>
    refine ⟨[.copied ['\\']], ?_, by simp, rfl⟩
    simp [scan, step, quotedStep, Step.copy]

theorem close_copies {q : Char} (n : Nat) (rest : List Char) (hq : q ≠ '\\') :
    Copies family (.quoted q (n + 1)) (List.replicate (n + 1) q) .code rest := by
  have hstep : step family (.quoted q (n + 1)) q (List.replicate n q ++ rest) =
      .copy q (List.replicate n q ++ rest) n .code := by
    have hs : startsWith (List.replicate n q) (List.replicate n q ++ rest) = true :=
      startsWith_iff.mpr (List.prefix_append _ _)
    simp only [step, quotedStep, hq, if_false, Nat.add_sub_cancel, true_and, hs, if_true]
  have h := Copies.of_step hstep
  rwa [List.take_left' (by simp), List.drop_left' (by simp)] at h

theorem copies_of_end (h : Copies family region text region' []) :
    Copies family region text region'' [] := by
  obtain ⟨segments, he, hcopied, htext⟩ := h
  exact ⟨segments, by rw [he]; simp [scan], hcopied, htext⟩

theorem lineLead_copies {lead after : List Char} (h : LineLead family lead after) :
    Copies family .code lead .lineComment after := by
  rcases h with ⟨rfl, h⟩ | ⟨rfl, rfl⟩
  · have hstep : step family .code '#' after = .copy '#' after 0 .lineComment := by
      have hs : family = .python ∨ (!startsWith ['['] after) = true := by
        rcases h with h | h
        · exact .inl h
        · exact .inr (by rw [Bool.not_eq_true', ← Bool.not_eq_true, startsWith_iff]; exact h)
      rw [step, codeStep, if_neg (by decide), if_pos ⟨rfl, hs⟩]
    exact .of_step_zero hstep
  · have hstep : step .php .code '/' ('/' :: after) = .copy '/' ('/' :: after) 1 .lineComment := by
      simp [step, codeStep, startsWith]
    exact .of_step hstep

theorem line_copies {body : List Char} (h : Free ['\n'] body rest) :
    Copies family .lineComment body .lineComment rest := by
  induction body with
  | nil => exact .refl _ _ _
  | cons c body ih =>
    obtain ⟨hc, hbody⟩ := free_cons.mp h
    have hne : c ≠ '\n' := by
      rintro rfl
      exact hc (List.cons_prefix_cons.mpr ⟨rfl, List.nil_prefix⟩)
    have hstep : step family .lineComment c (body ++ rest) =
        .copy c (body ++ rest) 0 .lineComment := by
      simp only [step, lineCommentStep, hne, if_false]
    exact (Copies.of_step_zero hstep).trans (ih hbody)

/-- The line feed after a comment is scanned alike in the comment and in code. -/
theorem scan_lineFeed (family : Family) (rest : List Char) :
    scan family 0 .lineComment ('\n' :: rest) = scan family 0 .code ('\n' :: rest) := by
  simp [scan, step, lineCommentStep, codeStep, plainStep, Step.copy]

theorem block_copies {body : List Char} (h : Free ['*', '/'] body rest) :
    Copies family .blockComment body .blockComment rest := by
  induction body with
  | nil => exact .refl _ _ _
  | cons c body ih =>
    obtain ⟨hc, hbody⟩ := free_cons.mp h
    have hclose : ¬ (c = '*' ∧ startsWith ['/'] (body ++ rest) = true) := by
      rintro ⟨rfl, hs⟩
      exact hc (List.cons_prefix_cons.mpr ⟨rfl, startsWith_iff.mp hs⟩)
    have hstep : step family .blockComment c (body ++ rest) =
        .copy c (body ++ rest) 0 .blockComment := by
      simp only [step, blockCommentStep, hclose, if_false]
    exact (Copies.of_step_zero hstep).trans (ih hbody)

theorem blockLead_copies (after : List Char) :
    Copies .php .code ['/', '*'] .blockComment after := by
  have hstep : step .php .code '/' ('*' :: after) = .copy '/' ('*' :: after) 1 .blockComment := by
    simp [step, codeStep, startsWith]
  exact .of_step hstep

theorem blockEnd_copies (family : Family) (rest : List Char) :
    Copies family .blockComment ['*', '/'] .code rest := by
  have hstep : step family .blockComment '*' ('/' :: rest) = .copy '*' ('/' :: rest) 1 .code := by
    simp [step, blockCommentStep, startsWith]
  exact .of_step hstep

theorem literal_copies {lit : List Char} (h : Literal family lit rest) :
    Copies family .code lit .code rest := by
  cases h with
  | @string d body rest hd hbody =>
    obtain ⟨q, n, rfl, hq, hopen⟩ := opens_copies hd
    exact ((hopen.trans (by simpa using inside_copies hbody)).trans (close_copies n rest hq))
  | @openString d body hd hbody =>
    obtain ⟨q, n, rfl, hq, hopen⟩ := opens_copies hd
    exact copies_of_end (Copies.trans (by simpa using hopen) (inside_copies hbody))
  | @line lead body rest hlead hbody hrest =>
    have h := (lineLead_copies hlead).trans (line_copies hbody)
    rcases hrest with rfl | ⟨rest, rfl⟩
    · exact copies_of_end h
    · obtain ⟨segments, he, hcopied, htext⟩ := h
      exact ⟨segments, by rw [he]; exact congrArg _ (scan_lineFeed family rest), hcopied, htext⟩
  | @block body rest hf hbody =>
    subst hf
    exact ((blockLead_copies _).trans (by simpa using block_copies hbody)).trans
      (blockEnd_copies .php rest)
  | @openBlock body hf hbody =>
    subst hf
    exact copies_of_end ((blockLead_copies _).trans (block_copies hbody))

end Placeholder

end CodePattern
