import CodePattern.Proofs.Draft
import CodePattern.Proofs.Occurrence

/-! The scan for placeholders, octet by octet. It moves over the octets of the text and cuts out
slices, which exist only between characters, though a backslash may lead it into the middle of
one. No slice is ever missing, and what comes out is what the scan by characters gives. -/

namespace CodePattern

namespace Placeholder

open Lexical

/-- Where a mark first stands in a text, in octets. -/
def find? (mark : List Char) : List Char → Option Nat
  | [] => none
  | c :: cs =>
    if Placeholder.startsWith mark (c :: cs) then some 0
    else (find? mark cs).map (c.utf8Size + ·)

theorem find?_free {mark body rest : List Char} (hbody : Lexical.Free mark body rest)
    (hrest : rest = [] ∨ mark <+: rest) :
    find? mark (body ++ rest) = if rest = [] then none else some (width body) := by
  induction body with
  | nil =>
    cases rest with
    | nil => rfl
    | cons c rest =>
      have hstarts := Placeholder.startsWith_iff.mpr (hrest.resolve_left (by simp))
      rw [List.nil_append, find?, if_pos hstarts]
      rfl
  | cons c body ih =>
    obtain ⟨hc, hbody⟩ := Lexical.free_cons.mp hbody
    rw [List.cons_append, find?, if_neg (fun h => hc (Placeholder.startsWith_iff.mp h)), ih hbody]
    split <;> rfl

/-- Where the scan stands: at an octet, in a string that ends with so many octets or in none. -/
structure Cursor where
  offset : Nat
  quote : Option (UInt8 × Nat)
  draft : Draft
  deriving DecidableEq, Repr

namespace Cursor

def start : Cursor := ⟨0, none, .empty⟩

def moveTo (s : Cursor) (offset : Nat) : Cursor := { s with offset }

def replace? (source : List Char) (s : Cursor) (stop : Nat) (new : List Char) : Option Cursor :=
  (s.draft.replace? source s.offset stop new).map fun draft => { s with offset := stop, draft }

def quotedTurn (quote : UInt8) (length : Nat) (ahead : List UInt8) (s : Cursor) : Cursor :=
  if ahead.head? = some (octet '\\') then s.moveTo (s.offset + 2)
  else if ahead.head? = some quote ∧ (ahead.take length).count quote = length then
    { s with offset := s.offset + length, quote := none }
  else s.moveTo (s.offset + 1)

def openQuote (family : Family) (quote : UInt8) (ahead : List UInt8) (s : Cursor) : Cursor :=
  let length := if family = .python ∧ (ahead.take 3).count quote = 3 then 3 else 1
  { s with offset := s.offset + length, quote := some (quote, length) }

def passLine (ahead : List UInt8) (s : Cursor) : Cursor :=
  s.moveTo (s.offset + (ahead.takeWhile (· != lineFeed)).length)

def passBlock? (source : List Char) (s : Cursor) : Option Cursor :=
  (dropWidth? (s.offset + 2) source).map fun rest =>
    match find? ['*', '/'] rest with
    | some place => s.moveTo (s.offset + 2 + place + 2)
    | none => s.moveTo (width source)

def wordStop (source : List Char) (start : Nat) : Nat :=
  start + (((octets source).drop start).takeWhile isWordOctet).length

def dollarDotsTurn? (family : Family) (source : List Char) (s : Cursor) : Option Cursor :=
  let stop := wordStop source (s.offset + 4)
  (slice? source (s.offset + 4) stop).bind fun name =>
    if isMetavariableName name then s.replace? source stop (ellipsisMetavariable family name)
    else some (s.moveTo (s.offset + 1))

def dollarNameTurn? (family : Family) (source : List Char) (s : Cursor) : Option Cursor :=
  let stop := wordStop source (s.offset + 1)
  (slice? source (s.offset + 1) stop).bind fun name =>
    if family = .python ∧ isMetavariableName name then
      (s.replace? source stop (metavariableMark ++ name)).map (·.moveTo (max stop (s.offset + 1)))
    else some (s.moveTo (max stop (s.offset + 1)))

def dollarTurn? (family : Family) (source : List Char) (s : Cursor) : Option Cursor :=
  (dropWidth? (s.offset + 1) source).bind fun rest =>
    if startsWith dots rest then s.dollarDotsTurn? family source
    else s.dollarNameTurn? family source

def isSpreadOctet (next : Option UInt8) : Bool :=
  next.any fun b => b == octet '$' || isWordOctet b

def dotsTurn? (family : Family) (source : List Char) (ahead : List UInt8) (s : Cursor) :
    Option Cursor :=
  (dropWidth? s.offset source).bind fun rest =>
    if startsWith dots rest then
      if family = .php ∧ !isSpreadOctet ahead[3]? then
        s.replace? source (s.offset + 3) phpEllipsis
      else some (s.moveTo (s.offset + 3))
    else some (s.moveTo (s.offset + 1))

def codeTurn? (family : Family) (source : List Char) (b : UInt8) (after : List UInt8)
    (s : Cursor) : Option Cursor :=
  if b = octet '\x27' ∨ b = octet '"' then some (s.openQuote family b (b :: after))
  else if b = octet '#' ∧ (family = .python ∨ after.head? ≠ some (octet '[')) then
    some (s.passLine (b :: after))
  else if b = octet '/' ∧ family = .php ∧ after.head? = some (octet '/') then
    some (s.passLine (b :: after))
  else if b = octet '/' ∧ family = .php ∧ after.head? = some (octet '*') then
    s.passBlock? source
  else if b = octet '$' then s.dollarTurn? family source
  else if b = octet '.' then s.dotsTurn? family source (b :: after)
  else some (s.moveTo (s.offset + 1))

/-- One turn of the scan, unless a slice that it needs is missing. -/
def turn? (family : Family) (source : List Char) (s : Cursor) : Option Cursor :=
  match (octets source).drop s.offset with
  | [] => none
  | b :: after =>
    match s.quote with
    | some (quote, length) => some (s.quotedTurn quote length (b :: after))
    | none => s.codeTurn? family source b after

/-- From here on the scan takes turns until it is past the text, and gives a revision. -/
inductive Runs (family : Family) (source : List Char) : Cursor → Revision → Prop
  | done {s : Cursor} {r : Revision} (h : width source ≤ s.offset)
      (hr : s.draft.finish? source = some r) : Runs family source s r
  | turn {s s' : Cursor} {r : Revision} (h : s.offset < width source)
      (hs : s.turn? family source = some s') (hr : Runs family source s' r) :
      Runs family source s r

/-- The scan stands between two characters, with these segments behind it. -/
structure Stand (source : List Char) (s : Cursor) (segments : List Segment) (rest : List Char) :
    Prop where
  source_eq : source = textBefore segments ++ rest
  offset_eq : s.offset = width (textBefore segments)
  holds : s.draft.Holds segments

/-- How the octets of a string's delimiter stand for a region. -/
inductive Tracks : Region → Option (UInt8 × Nat) → Prop
  | code : Tracks .code none
  | quoted {q : Char} (n : Nat) (hq : IsAscii q) (hne : q ≠ '\\') :
      Tracks (.quoted q (n + 1)) (some (octet q, n + 1))

variable {family : Family} {source text rest : List Char} {s : Cursor} {segments : List Segment}
  {region region' : Region} {r : Revision} {c : Char} {cs : List Char}

namespace Stand

theorem ahead (h : Stand source s segments rest) :
    (octets source).drop s.offset = octets rest := by
  rw [h.source_eq, h.offset_eq, drop_octets]

theorem lt (h : Stand source s segments (c :: cs)) : s.offset < width source := by
  have := c.utf8Size_pos
  rw [h.source_eq, h.offset_eq, width_append, width_cons]
  omega

theorem drop (text : List Char) (h : Stand source s segments (text ++ rest)) :
    dropWidth? (s.offset + width text) source = some rest := by
  have hdrop := dropWidth?_width (textBefore segments ++ text) rest
  rwa [List.append_assoc, ← h.source_eq, width_append, ← h.offset_eq] at hdrop

theorem slice {part : List Char} (h : Stand source s segments (text ++ (part ++ rest))) :
    slice? source (s.offset + width text) (s.offset + width text + width part) = some part := by
  have hslice := slice?_width (textBefore segments ++ text) part rest
  rwa [List.append_assoc, List.append_assoc, ← h.source_eq, width_append, ← h.offset_eq] at hslice

theorem wordStop (text : List Char) (h : Stand source s segments (text ++ rest)) :
    wordStop source (s.offset + width text) = s.offset + width text + width (word rest) := by
  have hahead := drop_octets (textBefore segments ++ text) rest
  rw [List.append_assoc, ← h.source_eq, width_append, ← h.offset_eq] at hahead
  rw [Cursor.wordStop, hahead, length_takeWhile_word]

theorem word_slice (text : List Char) (h : Stand source s segments (text ++ rest)) :
    slice? source (s.offset + width text) (Cursor.wordStop source (s.offset + width text)) =
      some (word rest) := by
  have hsplit : rest = word rest ++ rest.dropWhile isWordChar :=
    (List.takeWhile_append_dropWhile).symm
  rw [h.wordStop text]
  rw [hsplit] at h
  exact h.slice

theorem copies (more : List Segment) (h : Stand source s segments (textBefore more ++ rest))
    (hmore : ∀ x ∈ more, ∃ t, x = Segment.copied t) (quote : Option (UInt8 × Nat)) :
    Stand source { s with offset := s.offset + width (textBefore more), quote }
      (segments ++ more) rest := by
  have hbefore : textBefore (segments ++ more) = textBefore segments ++ textBefore more :=
    List.flatMap_append
  refine ⟨?_, ?_, h.holds.copies more hmore⟩
  · rw [hbefore, List.append_assoc]
    exact h.source_eq
  · rw [hbefore, width_append, ← h.offset_eq]

theorem replace? {old : List Char} (h : Stand source s segments (old ++ rest)) (new : List Char) :
    ∃ s', s.replace? source (s.offset + width old) new = some s' ∧
      Stand source s' (segments ++ [.replaced old new]) rest ∧
      s'.offset = s.offset + width old ∧ s'.quote = s.quote := by
  have hbefore : textBefore (segments ++ [.replaced old new]) = textBefore segments ++ old := by
    simp [textBefore]
  have hsource : source = textBefore segments ++ old ++ rest := by
    rw [List.append_assoc]
    exact h.source_eq
  obtain ⟨d, hd, hholds⟩ := h.holds.replace? hsource new
  refine ⟨{ s with offset := s.offset + width old, draft := d }, ?_, ⟨?_, ?_, hholds⟩, rfl, rfl⟩
  · rw [Cursor.replace?, h.offset_eq, hd, Option.map_some]
  · rw [hbefore, List.append_assoc]
    exact h.source_eq
  · rw [hbefore, width_append, ← h.offset_eq]

end Stand

/-- Within a character the scan goes on octet by octet. -/
theorem turn_high {b : UInt8} {after : List UInt8}
    (hahead : (octets source).drop s.offset = b :: after) (hb : b ∈ octetsOf c)
    (hhigh : ¬ IsAscii c) (hquote : Tracks region s.quote) :
    s.turn? family source = some (s.moveTo (s.offset + 1)) := by
  have hne : ∀ x, IsAscii x → b ≠ octet x :=
    fun x hx he => hhigh ((eq_octet_iff hx hb).mp he ▸ hx)
  rw [turn?, hahead]
  generalize hq : s.quote = q at hquote
  cases hquote with
  | code =>
    simp only [codeTurn?, hne '\x27' (by decide), hne '"' (by decide), hne '#' (by decide),
      hne '/' (by decide), hne '$' (by decide), hne '.' (by decide), false_and, or_self, if_false]
  | @quoted q n hascii =>
    simp only [quotedTurn, List.head?_cons, Option.some.injEq, hne '\\' (by decide), hne q hascii,
      false_and, if_false]

theorem runs_inside {before after : List Char} (hsource : source = before ++ c :: after)
    (hquote : Tracks region s.quote) {k : Nat} (hk : 0 < k) (hle : k ≤ c.utf8Size)
    (h : Runs family source (s.moveTo (width before + c.utf8Size)) r) :
    Runs family source (s.moveTo (width before + k)) r := by
  obtain ⟨j, hj⟩ := Nat.exists_eq_add_of_le hle
  -- The induction is on the octets of the character that are still ahead.
  induction j generalizing k with
  | zero =>
    rw [Nat.add_zero] at hj
    exact hj ▸ h
  | succ j ih =>
    have hlength : (octetsOf c).length = c.utf8Size := String.length_utf8EncodeChar c
    have hhigh : ¬ IsAscii c := by
      intro hascii
      rw [octetsOf_ascii hascii, List.length_singleton] at hlength
      omega
    obtain ⟨b, more, hb⟩ := List.exists_cons_of_ne_nil
      (List.ne_nil_of_length_pos (l := (octetsOf c).drop k) (by rw [List.length_drop]; omega))
    have hahead : (octets source).drop (width before + k) = b :: (more ++ octets after) := by
      rw [hsource, ← List.drop_drop, drop_octets, octets_cons, List.drop_append_of_le_length
        (by omega), hb, List.cons_append]
    have hmem : b ∈ octetsOf c := List.mem_of_mem_drop (hb ▸ List.mem_cons_self)
    have hlt : width before + k < width source := by
      rw [hsource, width_append, width_cons]
      omega
    have hnext : Runs family source (s.moveTo (width before + (k + 1))) r :=
      ih (by omega) (by omega) (by omega)
    exact .turn hlt (turn_high hahead hmem hhigh hquote) hnext

/-- Wherever the scan comes to stand before this rest, it gives what the scan by characters
gives. -/
def Agrees (family : Family) (rest : List Char) : Prop :=
  ∀ (source : List Char) (s : Cursor) (segments : List Segment) (region : Region),
    Stand source s segments rest → Tracks region s.quote →
      Runs family source s (.ofSegments (segments ++ scan family 0 region rest))

theorem agrees_nil (family : Family) : Agrees family [] := by
  intro source s segments region h _
  have hsource : source = textBefore segments := h.source_eq.trans (List.append_nil _)
  rw [scan, List.append_nil]
  exact .done (by rw [h.offset_eq, ← hsource]) (h.holds.finish? hsource)

theorem runs_of_copies (hagrees : Agrees family rest) (h : Stand source s segments (text ++ rest))
    (hcopies : Copies family region text region' rest) {quote : Option (UInt8 × Nat)}
    (hquote : Tracks region' quote) :
    Runs family source { s with offset := s.offset + width text, quote }
      (.ofSegments (segments ++ scan family 0 region (text ++ rest))) := by
  obtain ⟨more, hscan, hmore, rfl⟩ := hcopies
  rw [hscan, ← List.append_assoc]
  exact hagrees _ _ _ _ (h.copies more hmore quote) hquote

/-- The scan may enter the last character that it copies by one octet only. -/
theorem runs_of_entry (lead : List Char) (hagrees : Agrees family cs)
    (h : Stand source s segments (lead ++ c :: cs))
    (hcopies : Copies family region (lead ++ [c]) region' cs) {quote : Option (UInt8 × Nat)}
    (hquote : Tracks region' quote) :
    Runs family source { s with offset := s.offset + width lead + 1, quote }
      (.ofSegments (segments ++ scan family 0 region (lead ++ c :: cs))) := by
  have hsource : source = (textBefore segments ++ lead) ++ c :: cs := by
    rw [List.append_assoc]
    exact h.source_eq
  have hsplit : lead ++ c :: cs = (lead ++ [c]) ++ cs := by simp
  rw [hsplit] at h ⊢
  have hafter := runs_of_copies hagrees h hcopies hquote
  have hplace : width (textBefore segments ++ lead) = s.offset + width lead := by
    rw [width_append, h.offset_eq]
  have hwhole : s.offset + width (lead ++ [c]) =
      width (textBefore segments ++ lead) + c.utf8Size := by
    rw [hplace, width_append, width_cons, width_nil]
    omega
  rw [hwhole] at hafter
  rw [← hplace]
  exact runs_inside (s := { s with quote }) hsource hquote Nat.one_pos c.utf8Size_pos hafter

theorem quoted_agrees {q : Char} {n : Nat} (hascii : IsAscii q) (hne : q ≠ '\\')
    (ih : ∀ rest : List Char, rest.length < (c :: cs).length → Agrees family rest)
    (h : Stand source s segments (c :: cs)) (hquote : s.quote = some (octet q, n + 1)) :
    Runs family source s
      (.ofSegments (segments ++ scan family 0 (.quoted q (n + 1)) (c :: cs))) := by
  have htracks : Tracks (.quoted q (n + 1)) s.quote := hquote ▸ .quoted n hascii hne
  have hturn : s.turn? family source =
      some (s.quotedTurn (octet q) (n + 1) (octets (c :: cs))) := by
    obtain ⟨b, after, hb, -⟩ := exists_octet_cons c cs
    rw [turn?, h.ahead, hb, hquote]
  have hescape : (octets (c :: cs)).head? = some (octet '\\') ↔ c = '\\' := by
    rw [head?_octets (by decide), List.cons_prefix_cons]
    simp [eq_comm]
  have hclose : (octets (c :: cs)).head? = some (octet q) ∧
      ((octets (c :: cs)).take (n + 1)).count (octet q) = n + 1 ↔
        List.replicate (n + 1) q <+: c :: cs := by
    rw [count_take_octets hascii, head?_octets hascii]
    exact and_iff_right_of_imp fun hp => (List.prefix_append [q] (List.replicate n q)).trans hp
  by_cases hc : c = '\\'
  · subst hc
    have hnext : s.turn? family source = some (s.moveTo (s.offset + 2)) := by
      rw [hturn, quotedTurn, if_pos (hescape.mpr rfl)]
    -- Two octets on, the scan is past the text or within the character after the backslash.
    refine .turn h.lt hnext ?_
    cases cs with
    | nil =>
      have hend := h.copies [.copied ['\\']] (by simp) s.quote
      have hsource : source = textBefore (segments ++ [.copied ['\\']]) :=
        hend.source_eq.trans (List.append_nil _)
      refine .done ?_ (hend.holds.finish? hsource)
      rw [hsource, ← hend.offset_eq]
      exact Nat.le_succ _
    | cons d cs =>
      have hstep : step family (.quoted q (n + 1)) '\\' (d :: cs) =
          .copy '\\' (d :: cs) 1 (.quoted q (n + 1)) := by
        rw [step, quotedStep, if_pos rfl]
      exact runs_of_entry ['\\'] (ih cs (by simp only [List.length_cons]; omega)) h
        (.of_step hstep) htracks
  · by_cases hp : List.replicate (n + 1) q <+: c :: cs
    · obtain ⟨rest, hrest⟩ := hp
      have hnext : s.turn? family source =
          some { s with offset := s.offset + (n + 1), quote := none } := by
        rw [hturn, quotedTurn, if_neg (fun he => hc (hescape.mp he)),
          if_pos (hclose.mpr ⟨rest, hrest⟩)]
      have hwidth : width (List.replicate (n + 1) q) = n + 1 := by
        rw [width_ascii fun x hx => List.eq_of_mem_replicate hx ▸ hascii, List.length_replicate]
      refine .turn h.lt hnext ?_
      rw [← hrest] at h ih ⊢
      have hrun := runs_of_copies (ih rest (by simp)) h (close_copies n rest hne) .code
      rwa [hwidth] at hrun
    · have hnext : s.turn? family source = some (s.moveTo (s.offset + 1)) := by
        rw [hturn, quotedTurn, if_neg (fun he => hc (hescape.mp he)),
          if_neg (fun he => hp (hclose.mp he))]
      have hplain : ¬ (c = q ∧ startsWith (List.replicate n q) cs = true) := by
        rintro ⟨rfl, hs⟩
        exact hp (List.cons_prefix_cons.mpr ⟨rfl, startsWith_iff.mp hs⟩)
      have hstep : step family (.quoted q (n + 1)) c cs =
          .copy c cs 0 (.quoted q (n + 1)) := by
        rw [step, quotedStep, if_neg hc, Nat.add_sub_cancel, if_neg hplain]
      exact .turn h.lt hnext
        (runs_of_entry [] (ih cs (by simp)) h (.of_step_zero hstep) htracks)

theorem openQuote_agrees (hc : c = '\x27' ∨ c = '"')
    (ih : ∀ rest : List Char, rest.length < (c :: cs).length → Agrees family rest)
    (h : Stand source s segments (c :: cs)) :
    Runs family source (s.openQuote family (octet c) (octets (c :: cs)))
      (.ofSegments (segments ++ scan family 0 .code (c :: cs))) := by
  have hascii : IsAscii c := by rcases hc with rfl | rfl <;> decide
  have hne : c ≠ '\\' := by rcases hc with rfl | rfl <;> decide
  have htriple : ((octets (c :: cs)).take 3).count (octet c) = 3 ↔ [c, c] <+: cs := by
    rw [count_take_octets hascii]
    exact List.cons_prefix_cons.trans (and_iff_right rfl)
  have hwidth : width [c, c] = 2 := width_ascii (by simp [hascii])
  by_cases ht : family = .python ∧ [c, c] <+: cs
  · have hopen : s.openQuote family (octet c) (octets (c :: cs)) =
        { s with offset := s.offset + width [c, c] + 1, quote := some (octet c, 2 + 1) } := by
      simp only [openQuote, htriple, ht, and_self, if_true, hwidth]
    obtain ⟨hf, rest, rfl⟩ := ht
    have hstep : step family .code c ([c, c] ++ rest) =
        .copy c ([c, c] ++ rest) 2 (.quoted c 3) := by
      simp [step, codeStep, hc, quoteStep, startsWith, hf]
    rw [hopen]
    exact runs_of_entry [c, c] (ih rest (by simp; omega)) h (.of_step hstep)
      (.quoted 2 hascii hne)
  · have hopen : s.openQuote family (octet c) (octets (c :: cs)) =
        { s with offset := s.offset + width [] + 1, quote := some (octet c, 0 + 1) } := by
      simp only [openQuote, htriple, ht, if_false, width_nil, Nat.add_zero, Nat.zero_add]
    have hstep : step family .code c cs = .copy c cs 0 (.quoted c 1) := by
      simp only [step, codeStep, hc, if_true, quoteStep, startsWith_iff, ht, if_false]
    rw [hopen]
    exact runs_of_entry [] (ih cs (by simp)) h (.of_step_zero hstep)
      (.quoted 0 hascii hne)

theorem takeWhile_free {body : List Char} (hbody : Free ['\n'] body rest)
    (hrest : rest = [] ∨ ['\n'] <+: rest) : (body ++ rest).takeWhile (· != '\n') = body := by
  induction body with
  | nil =>
    rcases hrest with rfl | ⟨rest, rfl⟩
    · rfl
    · exact List.takeWhile_cons_of_neg (by decide)
  | cons c body ih =>
    obtain ⟨hc, hbody⟩ := free_cons.mp hbody
    have hne : c ≠ '\n' := by
      rintro rfl
      exact hc (List.prefix_append ['\n'] (body ++ rest))
    rw [List.cons_append, List.takeWhile_cons_of_pos (by simpa using hne), ih hbody]

theorem passLine_agrees (lead : List Char) {after : List Char} (hlead : LineLead family lead after)
    (ih : ∀ rest : List Char, rest.length < (lead ++ after).length → Agrees family rest)
    (h : Stand source s segments (lead ++ after)) (hquote : s.quote = none) :
    Runs family source (s.passLine (octets (lead ++ after)))
      (.ofSegments (segments ++ scan family 0 .code (lead ++ after))) := by
  obtain ⟨body, rest, rfl, hbody, hrest⟩ := exists_free ['\n'] after
  have hlit : Literal family (lead ++ body) rest := .line hlead hbody hrest
  have hplain : ∀ x ∈ lead, x ≠ '\n' := by
    rcases hlead with ⟨rfl, -⟩ | ⟨rfl, -⟩ <;> simp
  have hline : (lead ++ body ++ rest).takeWhile (· != '\n') = lead ++ body := by
    rw [List.append_assoc, List.takeWhile_append_of_pos (by simpa using hplain),
      takeWhile_free hbody hrest]
  have hpass : s.passLine (octets (lead ++ body ++ rest)) =
      { s with offset := s.offset + width (lead ++ body), quote := none } := by
    rw [passLine, length_takeWhile_line, hline, moveTo, hquote]
  rw [← List.append_assoc] at h ih ⊢
  rw [hpass]
  exact runs_of_copies (ih rest hlit.length_lt) h (literal_copies hlit) .code

theorem passBlock_agrees {after : List Char}
    (ih : ∀ rest : List Char, rest.length < ('/' :: '*' :: after).length → Agrees .php rest)
    (h : Stand source s segments ('/' :: '*' :: after)) (hquote : s.quote = none) :
    ∃ s', s.passBlock? source = some s' ∧ Runs .php source s'
      (.ofSegments (segments ++ scan .php 0 .code ('/' :: '*' :: after))) := by
  obtain ⟨body, rest, rfl, hbody, hrest⟩ := exists_free ['*', '/'] after
  have hdrop : dropWidth? (s.offset + 2) source = some (body ++ rest) := h.drop ['/', '*']
  rw [passBlock?, hdrop, Option.map_some, find?_free hbody hrest]
  refine ⟨_, rfl, ?_⟩
  rcases hrest with rfl | ⟨rest, rfl⟩
  · have hlit : Literal .php (['/', '*'] ++ body) [] := .openBlock rfl hbody
    have hend : width source = s.offset + width (['/', '*'] ++ body) := by
      rw [h.source_eq, h.offset_eq, width_append, List.append_nil]
      rfl
    rw [if_pos rfl]
    show Runs .php source (s.moveTo (width source)) _
    rw [hend, moveTo, hquote]
    exact runs_of_copies (agrees_nil .php) h (literal_copies hlit) .code
  · have hlit : Literal .php (['/', '*'] ++ body ++ ['*', '/']) rest := .block rfl hbody
    have hsplit : '/' :: '*' :: (body ++ (['*', '/'] ++ rest)) =
        ['/', '*'] ++ body ++ ['*', '/'] ++ rest := by simp
    have hstop : s.offset + 2 + width body + 2 =
        s.offset + width (['/', '*'] ++ body ++ ['*', '/']) := by
      rw [width_append, width_append, show width ['/', '*'] = 2 from rfl,
        show width ['*', '/'] = 2 from rfl]
      omega
    rw [if_neg (by simp)]
    show Runs .php source (s.moveTo (s.offset + 2 + width body + 2)) _
    rw [hstop, moveTo, hquote]
    rw [hsplit] at h ih ⊢
    exact runs_of_copies (ih rest hlit.length_lt) h (literal_copies hlit) .code

theorem runs_of_replace {n : Nat} {new : List Char} (hagrees : Agrees family (cs.drop n))
    (h : Stand source s segments (c :: cs)) (hquote : s.quote = none)
    (hstep : step family .code c cs = .replace c cs n new) :
    ∃ s', s.replace? source (s.offset + width (c :: cs.take n)) new = some s' ∧
      s'.offset = s.offset + width (c :: cs.take n) ∧
      Runs family source s' (.ofSegments (segments ++ scan family 0 .code (c :: cs))) := by
  have hsplit : c :: cs = (c :: cs.take n) ++ cs.drop n := by
    rw [List.cons_append, List.take_append_drop]
  have hscan : scan family 0 .code (c :: cs) =
      .replaced (c :: cs.take n) new :: scan family 0 .code (cs.drop n) := by
    rw [scan, hstep, ← scan_covered]
    rfl
  obtain ⟨s', hs', hstand, hoffset, hsame⟩ := (hsplit ▸ h).replace? new
  have hrun := hagrees _ _ _ .code hstand (hsame.trans hquote ▸ .code)
  rw [List.append_assoc] at hrun
  exact ⟨s', hs', hoffset, hscan ▸ hrun⟩

theorem dollarDots_agrees {more : List Char}
    (ih : ∀ rest : List Char, rest.length < ('$' :: (dots ++ more)).length → Agrees family rest)
    (h : Stand source s segments ('$' :: (dots ++ more))) (hquote : s.quote = none) :
    ∃ s', s.dollarDotsTurn? family source = some s' ∧ Runs family source s'
      (.ofSegments (segments ++ scan family 0 .code ('$' :: (dots ++ more)))) := by
  have hslice : slice? source (s.offset + 4) (wordStop source (s.offset + 4)) =
      some (word more) := h.word_slice ('$' :: dots)
  have hstop : wordStop source (s.offset + 4) = s.offset + 4 + width (word more) :=
    h.wordStop ('$' :: dots)
  have hstep : step family .code '$' (dots ++ more) =
    dollarDotsStep family '$' (dots ++ more) := rfl
  rw [dollarDotsStep, show (dots ++ more).drop 3 = more from rfl] at hstep
  rw [dollarDotsTurn?, hslice, Option.bind_some]
  by_cases hname : isMetavariableName (word more) = true
  · rw [if_pos hname] at hstep ⊢
    obtain ⟨s', hs', -, hrun⟩ := runs_of_replace
      (ih _ (by rw [List.length_drop, List.length_cons]; omega)) h hquote hstep
    have hend : s.offset + width ('$' :: (dots ++ word more)) =
        s.offset + 4 + width (word more) := by
      rw [width_cons, width_append, show width dots = 3 from rfl, show '$'.utf8Size = 1 from rfl]
      omega
    rw [take_dots_word, hend, ← hstop] at hs'
    exact ⟨s', hs', hrun⟩
  · rw [if_neg hname] at hstep ⊢
    exact ⟨_, rfl, runs_of_entry [] (ih _ (by simp)) h (.of_step_zero hstep)
      (hquote ▸ .code)⟩

theorem dollarName_agrees (hdots : ¬ startsWith dots cs = true)
    (ih : ∀ rest : List Char, rest.length < ('$' :: cs).length → Agrees family rest)
    (h : Stand source s segments ('$' :: cs)) (hquote : s.quote = none) :
    ∃ s', s.dollarNameTurn? family source = some s' ∧ Runs family source s'
      (.ofSegments (segments ++ scan family 0 .code ('$' :: cs))) := by
  have hslice : slice? source (s.offset + 1) (wordStop source (s.offset + 1)) =
      some (word cs) := h.word_slice ['$']
  have hstop : wordStop source (s.offset + 1) = s.offset + width ('$' :: word cs) := by
    have hword : wordStop source (s.offset + 1) = s.offset + 1 + width (word cs) :=
      h.wordStop ['$']
    rw [hword, width_cons, Nat.add_assoc]
    rfl
  have hmax : max (wordStop source (s.offset + 1)) (s.offset + 1) =
      s.offset + width ('$' :: word cs) := by
    rw [hstop, width_cons, show '$'.utf8Size = 1 from rfl]
    omega
  have hstep : step family .code '$' cs = dollarStep family '$' cs := by
    have hplain : codeStep family '$' cs = plainStep family '$' cs :=
      codeStep_of_noLiteral (noLiteral_of_not_opener rfl cs)
    rw [step, hplain, plainStep, if_neg (hdots ·.2), if_pos rfl]
  have hafter : Agrees family (cs.drop (word cs).length) :=
    ih _ (by rw [List.length_drop, List.length_cons]; omega)
  rw [dollarStep] at hstep
  rw [dollarNameTurn?, hslice, Option.bind_some]
  by_cases hname : family = .python ∧ isMetavariableName (word cs) = true
  · rw [if_pos hname] at hstep ⊢
    obtain ⟨s', hs', hoffset, hrun⟩ := runs_of_replace hafter h hquote hstep
    rw [take_word] at hs' hoffset
    refine ⟨s', ?_, hrun⟩
    rw [hmax, hstop, hs', ← hoffset]
    rfl
  · rw [if_neg hname] at hstep ⊢
    have hcopies := Copies.of_step hstep
    rw [take_word] at hcopies
    have hsplit : '$' :: cs = ('$' :: word cs) ++ cs.drop (word cs).length := by
      have hcs := List.take_append_drop (word cs).length cs
      rw [take_word] at hcs
      rw [List.cons_append, hcs]
    rw [hsplit] at h ⊢
    exact ⟨_, rfl, by rw [hmax, moveTo, hquote]; exact runs_of_copies hafter h hcopies .code⟩

theorem dollarTurn_agrees
    (ih : ∀ rest : List Char, rest.length < ('$' :: cs).length → Agrees family rest)
    (h : Stand source s segments ('$' :: cs)) (hquote : s.quote = none) :
    ∃ s', s.dollarTurn? family source = some s' ∧ Runs family source s'
      (.ofSegments (segments ++ scan family 0 .code ('$' :: cs))) := by
  have hdrop : dropWidth? (s.offset + 1) source = some cs := h.drop ['$']
  rw [dollarTurn?, hdrop, Option.bind_some]
  by_cases hdots : startsWith dots cs = true
  · obtain ⟨more, rfl⟩ := startsWith_iff.mp hdots
    rw [if_pos hdots]
    exact dollarDots_agrees ih h hquote
  · rw [if_neg hdots]
    exact dollarName_agrees hdots ih h hquote

theorem isSpreadOctet_eq (more : List Char) :
    isSpreadOctet (octets (dots ++ more))[3]? = isSpread more := by
  have hthird : (octets (dots ++ more))[3]? = (octets more).head? := by
    rw [octets_append, List.head?_eq_getElem?]
    exact List.getElem?_append_right (Nat.le_refl 3)
  rw [hthird]
  cases more with
  | nil => rfl
  | cons c cs =>
    obtain ⟨b, after, hb, hmem, -⟩ := exists_octet_cons c cs
    have hdollar : (b == octet '$') = (c == '$') := by
      rw [Bool.eq_iff_iff, beq_iff_eq, beq_iff_eq, eq_octet_iff (by decide) hmem]
    rw [hb, List.head?_cons, isSpreadOctet, isSpread, Option.any_some, hdollar,
      isWordOctet_eq hmem]

theorem dotsTurn_agrees
    (ih : ∀ rest : List Char, rest.length < ('.' :: cs).length → Agrees family rest)
    (h : Stand source s segments ('.' :: cs)) (hquote : s.quote = none) :
    ∃ s', s.dotsTurn? family source (octets ('.' :: cs)) = some s' ∧ Runs family source s'
      (.ofSegments (segments ++ scan family 0 .code ('.' :: cs))) := by
  have hdrop : dropWidth? s.offset source = some ('.' :: cs) := h.drop []
  have htracks : Tracks .code s.quote := hquote ▸ .code
  have hstep : step family .code '.' cs =
      if startsWith ['.', '.'] cs = true then dotsStep family '.' cs else .copy '.' cs 0 .code := by
    have hplain : codeStep family '.' cs = plainStep family '.' cs :=
      codeStep_of_noLiteral (noLiteral_of_not_opener rfl cs)
    have hdollar : ¬ '.' = '$' := by decide
    simp only [step, hplain, plainStep, hdollar, false_and, if_false, true_and]
  rw [dotsTurn?, hdrop, Option.bind_some]
  by_cases hdots : startsWith ['.', '.'] cs = true
  · obtain ⟨more, rfl⟩ := startsWith_iff.mp hdots
    have hstarts : startsWith dots ('.' :: (['.', '.'] ++ more)) = true :=
      startsWith_iff.mpr ⟨more, rfl⟩
    have hspread : isSpreadOctet (octets ('.' :: (['.', '.'] ++ more)))[3]? = isSpread more :=
      isSpreadOctet_eq more
    rw [if_pos hdots, dotsStep, show (['.', '.'] ++ more).drop 2 = more from rfl] at hstep
    rw [if_pos hstarts, hspread]
    by_cases hbare : family = .php ∧ (!isSpread more) = true
    · rw [if_pos hbare] at hstep ⊢
      obtain ⟨s', hs', -, hrun⟩ := runs_of_replace (ih more (by simp; omega)) h hquote hstep
      exact ⟨s', hs', hrun⟩
    · rw [if_neg hbare] at hstep ⊢
      exact ⟨_, rfl, runs_of_entry ['.', '.'] (ih more (by simp; omega)) h
        (.of_step hstep) htracks⟩
  · have hstarts : ¬ startsWith dots ('.' :: cs) = true := by
      intro hs
      exact hdots (startsWith_iff.mpr (List.cons_prefix_cons.mp (startsWith_iff.mp hs)).2)
    rw [if_neg hdots] at hstep
    rw [if_neg hstarts]
    exact ⟨_, rfl, runs_of_entry [] (ih cs (by simp)) h (.of_step_zero hstep) htracks⟩

theorem code_agrees (ih : ∀ rest : List Char, rest.length < (c :: cs).length → Agrees family rest)
    (h : Stand source s segments (c :: cs)) (hquote : s.quote = none) :
    Runs family source s (.ofSegments (segments ++ scan family 0 .code (c :: cs))) := by
  obtain ⟨b, after, hb, hmem, hafter⟩ := exists_octet_cons c cs
  have hfirst : ∀ x, IsAscii x → (b = octet x ↔ c = x) := fun x hx => eq_octet_iff hx hmem
  have hnext : ∀ x y, IsAscii x → IsAscii y → c = x →
      (after.head? = some (octet y) ↔ startsWith [y] cs = true) := by
    rintro x y hx hy rfl
    rw [hafter hx, head?_octets hy, startsWith_iff]
  -- Whatever the turn asks about octets, the step asks about characters.
  have hquotes : b = octet '\x27' ∨ b = octet '"' ↔ c = '\x27' ∨ c = '"' :=
    or_congr (hfirst _ (by decide)) (hfirst _ (by decide))
  have hhash : b = octet '#' ∧ (family = .python ∨ after.head? ≠ some (octet '[')) ↔
      c = '#' ∧ (family = .python ∨ (!startsWith ['['] cs) = true) := by
    rw [hfirst '#' (by decide)]
    refine and_congr_right fun hc => or_congr_right ?_
    rw [ne_eq, hnext '#' '[' (by decide) (by decide) hc, Bool.not_eq_true']
    exact Bool.eq_false_iff.symm
  have hslash : ∀ y, IsAscii y →
      (b = octet '/' ∧ family = .php ∧ after.head? = some (octet y) ↔
        c = '/' ∧ family = .php ∧ startsWith [y] cs = true) := by
    intro y hy
    rw [hfirst '/' (by decide)]
    exact and_congr_right fun hc => and_congr_right fun _ => hnext '/' y (by decide) hy hc
  have hturn : s.turn? family source = s.codeTurn? family source b after := by
    rw [turn?, h.ahead, hb, hquote]
  suffices hgoal : ∃ s', s.codeTurn? family source b after = some s' ∧ Runs family source s'
      (.ofSegments (segments ++ scan family 0 .code (c :: cs))) by
    obtain ⟨s', hs', hrun⟩ := hgoal
    exact .turn h.lt (hturn.trans hs') hrun
  simp only [codeTurn?, hquotes, hhash, hslash '/' (by decide), hslash '*' (by decide),
    hfirst '$' (by decide), hfirst '.' (by decide), ← hb]
  by_cases hq : c = '\x27' ∨ c = '"'
  · have hbc : b = octet c := (hfirst c (by rcases hq with rfl | rfl <;> decide)).mpr rfl
    rw [if_pos hq, hbc]
    exact ⟨_, rfl, openQuote_agrees hq ih h⟩
  rw [if_neg hq]
  by_cases hh : c = '#' ∧ (family = .python ∨ (!startsWith ['['] cs) = true)
  · rw [if_pos hh]
    obtain ⟨rfl, hh⟩ := hh
    rw [Bool.not_eq_true', ← Bool.not_eq_true, startsWith_iff] at hh
    exact ⟨_, rfl, passLine_agrees ['#'] (.inl ⟨rfl, hh⟩) ih h hquote⟩
  rw [if_neg hh]
  by_cases hl : c = '/' ∧ family = .php ∧ startsWith ['/'] cs = true
  · rw [if_pos hl]
    obtain ⟨rfl, hf, hl⟩ := hl
    obtain ⟨rest, rfl⟩ := startsWith_iff.mp hl
    exact ⟨_, rfl, passLine_agrees ['/', '/'] (.inr ⟨rfl, hf⟩) ih h hquote⟩
  rw [if_neg hl]
  by_cases hk : c = '/' ∧ family = .php ∧ startsWith ['*'] cs = true
  · rw [if_pos hk]
    obtain ⟨rfl, rfl, hk⟩ := hk
    obtain ⟨rest, rfl⟩ := startsWith_iff.mp hk
    exact passBlock_agrees ih h hquote
  rw [if_neg hk]
  by_cases hd : c = '$'
  · rw [if_pos hd]
    subst hd
    exact dollarTurn_agrees ih h hquote
  rw [if_neg hd]
  by_cases ht : c = '.'
  · rw [if_pos ht]
    subst ht
    exact dotsTurn_agrees ih h hquote
  rw [if_neg ht]
  have hstep : step family .code c cs = .copy c cs 0 .code := by
    rw [step, codeStep, if_neg hq, if_neg hh, if_neg hl, if_neg hk, plainStep, if_neg (hd ·.1),
      if_neg hd, if_neg (ht ·.1)]
  exact ⟨_, rfl, runs_of_entry [] (ih cs (by simp)) h (.of_step_zero hstep)
    (hquote ▸ .code)⟩

theorem agrees (family : Family) (rest : List Char) : Agrees family rest := by
  -- Every kind of turn leads, if not at once, to a place before a shorter rest.
  induction hn : rest.length using Nat.strong_induction_on generalizing rest with
  | _ n ih =>
    cases rest with
    | nil => exact agrees_nil family
    | cons c cs =>
      have hshorter : ∀ after : List Char, after.length < (c :: cs).length → Agrees family after :=
        fun after hafter => ih _ (hn ▸ hafter) after rfl
      intro source s segments region h htracks
      generalize hquote : s.quote = quote at htracks
      cases htracks with
      | code => exact code_agrees hshorter h hquote
      | quoted n hascii hne => exact quoted_agrees hascii hne hshorter h hquote

theorem insert_runs (family : Family) (text : List Char) :
    Runs family text start (insert family text) :=
  agrees family text text start [] .code ⟨rfl, rfl, Draft.holds_empty⟩ .code

/-- After the backslash the scan is within the last character, where no slice could end. -/
example : turn? .python "'\\é".toList ⟨1, some (octet '\x27', 1), .empty⟩ =
      some ⟨3, some (octet '\x27', 1), .empty⟩ ∧ slice? "'\\é".toList 0 3 = none := by
  decide

end Cursor

end Placeholder

end CodePattern
