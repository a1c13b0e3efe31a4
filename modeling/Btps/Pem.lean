import Btps.JsString

/-!
# PEM armour of public keys

DNS key records publish a public key as bare base64 text. `base64ToPem` wraps it in
the `PUBLIC KEY` armour with lines of at most 64 characters, cut by the global match
`/.{1,64}/g`; `pemToBase64` strips the armour, the line breaks and the surrounding
blanks. For every base64 text the armour is undone exactly, whatever its length.
-/

namespace Btps

/-- The armour's first line. -/
def pemHeader : List Char := "-----BEGIN PUBLIC KEY-----".toList

/-- The armour's last line. -/
def pemFooter : List Char := "-----END PUBLIC KEY-----".toList

/-- The base64 alphabet `[A-Za-z0-9+/=]`, by code point. -/
def isBase64Char (c : Char) : Bool :=
  (65 ≤ c.toNat && c.toNat ≤ 90) || (97 ≤ c.toNat && c.toNat ≤ 122) ||
    (48 ≤ c.toNat && c.toNat ≤ 57) || [43, 47, 61].contains c.toNat

/-- The successive matches of `/.{1,64}/g` inside one run of characters that are not
line terminators: the greedy pattern takes 64 characters while it can. -/
def chunk64 (s : List Char) : List (List Char) :=
  if s = [] then [] else s.take 64 :: chunk64 (s.drop 64)
termination_by s.length
decreasing_by
  simp_wf
  cases s with
  | nil => contradiction
  | cons c cs => simp only [List.length_drop, List.length_cons]; omega

/-- `base64.match(/.{1,64}/g) || []`: the dot matches no line terminator, so the
matches are the chunks of every maximal run of other characters; no match gives
`null`, replaced by the empty list. -/
def matchLines (s : List Char) : List (List Char) :=
  ((s.splitOnP isLineTerminator).filter (!·.isEmpty)).flatMap chunk64

/-- `base64ToPem`: the armour lines around the matched lines, joined by line feeds. -/
def base64ToPem (base64 : List Char) : List Char :=
  ['\n'].intercalate (pemHeader :: matchLines base64 ++ [pemFooter])

/-- `pemToBase64`: remove the first header, the first footer, every line break, and
trim. -/
def pemToBase64 (pem : List Char) : List Char :=
  trim (removeLineBreaks (replaceFirst pemFooter (replaceFirst pemHeader pem)))

/-! ### The alphabet -/

/-- A base64 character is not one that `trim` removes. -/
theorem isTrimmable_of_isBase64Char {c : Char} (h : isBase64Char c = true) :
    isTrimmable c = false := by
  simp [isBase64Char] at h
  simp [isTrimmable, isWhiteSpace, isLineTerminator]
  omega

/-- A base64 character is not a line terminator. -/
theorem isLineTerminator_of_isBase64Char {c : Char} (h : isBase64Char c = true) :
    isLineTerminator c = false := by
  have := isTrimmable_of_isBase64Char h
  simp_all [isTrimmable]

/-! ### Chunking -/

/-- Empty text has no line. -/
theorem chunk64_nil : chunk64 [] = [] := by simp [chunk64]

/-- Non-empty text starts with a line of its first 64 characters. -/
theorem chunk64_cons {s : List Char} (hs : s ≠ []) :
    chunk64 s = s.take 64 :: chunk64 (s.drop 64) := by
  rw [chunk64, if_neg hs]

/-- The chunks concatenate to the text. -/
@[simp] theorem flatten_chunk64 (s : List Char) : (chunk64 s).flatten = s := by
  induction s using chunk64.induct with
  | case1 => simp [chunk64_nil]
  | case2 s hs ih => rw [chunk64_cons hs, List.flatten_cons, ih, List.take_append_drop]

/-- Every chunk is a non-empty piece of at most 64 characters of the text. -/
theorem mem_chunk64 {s l : List Char} (hl : l ∈ chunk64 s) :
    l ≠ [] ∧ l.length ≤ 64 ∧ ∀ c ∈ l, c ∈ s := by
  induction s using chunk64.induct with
  | case1 => simp [chunk64_nil] at hl
  | case2 s hs ih =>
    rw [chunk64_cons hs, List.mem_cons] at hl
    rcases hl with rfl | hl
    · refine ⟨?_, List.length_take_le _ _, fun c hc => List.mem_of_mem_take hc⟩
      cases s with
      | nil => contradiction
      | cons c cs => simp
    · obtain ⟨hne, hlen, hsub⟩ := ih hl
      exact ⟨hne, hlen, fun c hc => List.mem_of_mem_drop (hsub c hc)⟩

/-- Every chunk but the last has exactly 64 characters. -/
theorem length_of_mem_dropLast_chunk64 {s l : List Char} (hl : l ∈ (chunk64 s).dropLast) :
    l.length = 64 := by
  induction s using chunk64.induct with
  | case1 => simp [chunk64_nil] at hl
  | case2 s hs ih =>
    rw [chunk64_cons hs] at hl
    by_cases hrest : s.drop 64 = []
    · simp [hrest, chunk64_nil] at hl
    · rw [chunk64_cons hrest, List.dropLast_cons₂, List.mem_cons, ← chunk64_cons hrest] at hl
      rcases hl with rfl | hl
      · have : 64 < s.length := by simpa using hrest
        simp; omega
      · exact ih hl

/-- On base64 text the regular-expression matches are the chunks of the whole text. -/
theorem matchLines_eq_chunk64 {b : List Char} (hb : ∀ c ∈ b, isBase64Char c = true) :
    matchLines b = chunk64 b := by
  rw [matchLines, List.splitOnP_eq_single _ _ fun c hc => by
    simp [isLineTerminator_of_isBase64Char (hb c hc)]]
  cases b with
  | nil => simp [chunk64_nil]
  | cons c cs => simp

/-! ### The armour -/

/-- Joining the armour lines: the header, a line feed after every inner line, and
the footer. -/
theorem intercalate_armour (x : Char) (h f : List Char) :
    ∀ lines : List (List Char),
      [x].intercalate (h :: lines ++ [f]) = h ++ x :: (lines.flatMap (· ++ [x]) ++ f)
  | [] => by simp [List.intercalate]
  | l :: lines => by
    have ih := intercalate_armour x l f lines
    simp only [List.intercalate, List.cons_append, List.intersperse_cons₂,
      List.flatten_cons] at ih ⊢
    rw [ih]
    simp

/-- `base64ToPem` of base64 text is the header, the text's 64-character lines each ended by a
newline, and the footer. -/
theorem base64ToPem_eq {b : List Char} (hb : ∀ c ∈ b, isBase64Char c = true) :
    base64ToPem b = pemHeader ++ '\n' :: ((chunk64 b).flatMap (· ++ ['\n']) ++ pemFooter) := by
  rw [base64ToPem, matchLines_eq_chunk64 hb, intercalate_armour]

/-- Removing the newlines of lines that each end in one joins the lines. -/
theorem filter_flatMap_lines (lines : List (List Char)) (hlines : ∀ l ∈ lines, '\n' ∉ l) :
    (lines.flatMap (· ++ ['\n'])).filter (· != '\n') = lines.flatten := by
  induction lines with
  | nil => rfl
  | cons l lines ih =>
    have hl : l.filter (· != '\n') = l :=
      List.filter_eq_self.mpr fun c hc => by
        simpa using ne_of_mem_of_not_mem hc (hlines l (List.mem_cons_self _ _))
    simp [List.filter_append, hl, ih fun l' h => hlines l' (List.mem_cons_of_mem _ h)]

/-- Removing a pattern's first occurrence from the pattern itself leaves nothing. -/
theorem replaceFirst_self (pattern : List Char) : replaceFirst pattern pattern = [] := by
  simpa using replaceFirst_append pattern []

/-- Stripping the armour of `base64ToPem b` gives `b` back, for base64 text of any
length. -/
theorem pemToBase64_base64ToPem {b : List Char} (hb : ∀ c ∈ b, isBase64Char c = true) :
    pemToBase64 (base64ToPem b) = b := by
  have hbody : ∀ c ∈ '\n' :: (chunk64 b).flatMap (· ++ ['\n']),
      c = '\n' ∨ isBase64Char c = true := by
    intro c hc
    simp only [List.mem_cons, List.mem_flatMap, List.mem_append, List.not_mem_nil,
      or_false] at hc
    obtain rfl | ⟨l, hl, hc | rfl⟩ := hc
    · exact Or.inl rfl
    · exact Or.inr (hb c ((mem_chunk64 hl).2.2 c hc))
    · exact Or.inl rfl
  have hdash : '-' ∉ '\n' :: (chunk64 b).flatMap (· ++ ['\n']) := fun hmem => by
    rcases hbody _ hmem with h | h <;> exact absurd h (by decide)
  have hcr : '\r' ∉ '\n' :: (chunk64 b).flatMap (· ++ ['\n']) := fun hmem => by
    rcases hbody _ hmem with h | h <;> exact absurd h (by decide)
  have hlines : ∀ l ∈ chunk64 b, '\n' ∉ l := fun l hl hn =>
    absurd (hb _ ((mem_chunk64 hl).2.2 _ hn)) (by decide)
  rw [pemToBase64, base64ToPem_eq hb, replaceFirst_append, ← List.cons_append,
    replaceFirst_skip (by rfl) hdash, replaceFirst_self, List.append_nil,
    removeLineBreaks_eq_filter hcr, List.filter_cons_of_neg (by decide),
    filter_flatMap_lines _ hlines, flatten_chunk64]
  exact trim_eq_self
    (fun c hc => isTrimmable_of_isBase64Char (hb c (List.mem_of_mem_head? hc)))
    (fun c hc => isTrimmable_of_isBase64Char (hb c (List.mem_of_mem_getLast? hc)))

/-- `base64ToPem` and `pemToBase64` are inverse on base64 text of every length, the
empty text included: the lines between the armour lines are the consecutive chunks
of the text, 64 characters each but a shorter non-empty last one. -/
theorem base64ToPem_lines_roundTrip {b : List Char} (hb : ∀ c ∈ b, isBase64Char c = true) :
    pemToBase64 (base64ToPem b) = b ∧
      (∃ lines, (base64ToPem b).splitOn '\n' = pemHeader :: lines ++ [pemFooter] ∧
        lines.flatten = b ∧ (∀ l ∈ lines.dropLast, l.length = 64) ∧
        ∀ l ∈ lines.getLast?, l ≠ [] ∧ l.length ≤ 64) ∧
      base64ToPem (pemToBase64 (base64ToPem b)) = base64ToPem b := by
  have hround := pemToBase64_base64ToPem hb
  refine ⟨hround, ⟨chunk64 b, ?_, flatten_chunk64 b, fun l hl =>
    length_of_mem_dropLast_chunk64 hl, fun l hl => ?_⟩, by rw [hround]⟩
  · rw [base64ToPem, matchLines_eq_chunk64 hb, List.splitOn_intercalate _ _ ?_ (by simp)]
    intro l hl hn
    simp only [List.mem_cons, List.mem_append, List.not_mem_nil, or_false] at hl
    rcases hl with (rfl | hl) | rfl
    · exact absurd hn (by decide)
    · exact absurd (hb _ ((mem_chunk64 hl).2.2 _ hn)) (by decide)
    · exact absurd hn (by decide)
  · obtain ⟨hne, hlen, -⟩ := mem_chunk64 (List.mem_of_mem_getLast? hl)
    exact ⟨hne, hlen⟩

/-- A padded key text satisfies the hypothesis of the round trip. -/
theorem base64ToPem_lines_roundTrip_padded :
    (∀ c ∈ "QUI=".toList, isBase64Char c = true) ∧
      pemToBase64 (base64ToPem "QUI=".toList) = "QUI=".toList :=
  ⟨by decide, (base64ToPem_lines_roundTrip (by decide)).1⟩

end Btps
