import Btps.JsString

/-!
# Identities

An identity is written `account$domain`. `parseIdentity` splits the text on `$` and
destructures the first two fields; `isValidIdentity` asks whether that succeeds.
The characterisation below shows which strings are accepted: exactly those whose
first two `$`-fields are non-empty, whatever follows a second `$`.
-/

namespace Btps

/-- The halves of an identity, as `parseIdentity` returns them. -/
structure ParsedIdentity where
  accountName : List Char
  domainName : List Char
  deriving DecidableEq, Repr

/-- `parseIdentity`: `const [accountName, domainName] = identity.split('$')`. A field
that the split does not produce is `undefined`; an empty or missing half gives `null`. -/
def parseIdentity (identity : List Char) : Option ParsedIdentity :=
  match identity.splitOn '$' with
  | accountName :: domainName :: _ =>
    if accountName.isEmpty || domainName.isEmpty then none
    else some ⟨accountName, domainName⟩
  | _ => none

/-- `isValidIdentity`: `!!parseIdentity(identity)`. -/
def isValidIdentity (identity : List Char) : Bool := (parseIdentity identity).isSome

/-! ### Splitting on one character -/

/-- No field of a split at `x` holds `x`. -/
theorem not_mem_of_mem_splitOn (x : Char) :
    ∀ (s l : List Char), l ∈ s.splitOn x → x ∉ l
  | [], l, hl => by simp_all [List.splitOn, List.splitOnP_nil]
  | c :: cs, l, hl => by
    rw [List.splitOn, List.splitOnP_cons] at hl
    have ih := not_mem_of_mem_splitOn x cs
    split at hl
    · rcases List.mem_cons.mp hl with rfl | hl
      · simp
      · exact ih l hl
    · rename_i hc
      have hcx : c ≠ x := by simpa using hc
      cases h : List.splitOnP (· == x) cs with
      | nil => exact absurd h (List.splitOnP_ne_nil _ _)
      | cons l₀ ls =>
        rw [h, List.modifyHead_cons] at hl
        have ih' : ∀ l ∈ l₀ :: ls, x ∉ l := fun l hl => ih l (by rw [List.splitOn, h]; exact hl)
        rcases List.mem_cons.mp hl with rfl | hl
        · simpa [Ne.symm hcx] using ih' l₀ (List.mem_cons_self _ _)
        · exact ih' l (List.mem_cons_of_mem _ hl)

/-- Text whose first `x` follows `a` splits at `x` into `a` and the split of the rest. -/
theorem splitOn_append_cons {x : Char} {a : List Char} (ha : x ∉ a) (s : List Char) :
    (a ++ x :: s).splitOn x = a :: s.splitOn x :=
  List.splitOnP_first _ a (fun c hc => by simpa using ne_of_mem_of_not_mem hc ha) x (by simp) s

/-- Text without `x` splits at `x` into itself alone. -/
theorem splitOn_of_not_mem {x : Char} {s : List Char} (hs : x ∉ s) : s.splitOn x = [s] :=
  List.splitOnP_eq_single _ _ fun c hc => by simpa using ne_of_mem_of_not_mem hc hs

/-- Rejoining the fields of a split gives the original text back. -/
theorem splitOn_eq_cons_cons {x : Char} {s a d : List Char} {rest : List (List Char)}
    (h : s.splitOn x = a :: d :: rest) :
    ∃ tail, s = a ++ x :: d ++ tail ∧ (tail = [] ∨ tail.head? = some x) := by
  have hs : [x].intercalate (s.splitOn x) = s := List.intercalate_splitOn s x
  rw [h] at hs
  cases rest with
  | nil => exact ⟨[], by simpa [List.intercalate] using hs.symm, Or.inl rfl⟩
  | cons r rs =>
    refine ⟨x :: [x].intercalate (r :: rs), ?_, Or.inr rfl⟩
    rw [← hs]
    simp [List.intercalate]

/-! ### What `parseIdentity` accepts -/

/-- `parseIdentity` returns `{accountName: a, domainName: d}` exactly when `a` and `d`
are non-empty, free of `$`, and the text is `a$d` followed by nothing or by a further
`$`-field that is dropped. -/
theorem parseIdentity_eq_some_iff {s : List Char} {p : ParsedIdentity} :
    parseIdentity s = some p ↔
      p.accountName ≠ [] ∧ p.domainName ≠ [] ∧ '$' ∉ p.accountName ∧ '$' ∉ p.domainName ∧
        ∃ tail, s = p.accountName ++ '$' :: p.domainName ++ tail ∧
          (tail = [] ∨ tail.head? = some '$') := by
  obtain ⟨a, d⟩ := p
  constructor
  · intro hp
    unfold parseIdentity at hp
    split at hp
    · rename_i a' d' rest hsplit
      split at hp
      · cases hp
      · rename_i hempty
        cases hp
        have hfree := not_mem_of_mem_splitOn '$' s
        rw [hsplit] at hfree
        simp only [Bool.or_eq_true, List.isEmpty_iff, not_or] at hempty
        exact ⟨hempty.1, hempty.2, hfree _ (by simp), hfree _ (by simp),
          splitOn_eq_cons_cons hsplit⟩
    · cases hp
  · rintro ⟨ha, hd, hasep, hdsep, tail, rfl, htail⟩
    dsimp only at ha hd hasep hdsep ⊢
    have hsplit : ∃ rest, (a ++ '$' :: d ++ tail).splitOn '$' = a :: d :: rest := by
      rw [List.append_assoc, List.cons_append, splitOn_append_cons hasep]
      rcases htail with rfl | htail
      · exact ⟨[], by rw [List.append_nil, splitOn_of_not_mem hdsep]⟩
      · obtain ⟨r, rfl⟩ : ∃ r, tail = '$' :: r := by
          cases tail with
          | nil => simp at htail
          | cons c r => simp_all
        exact ⟨r.splitOn '$', by rw [splitOn_append_cons hdsep]⟩
    obtain ⟨rest, hrest⟩ := hsplit
    rw [parseIdentity, hrest]
    simp [List.isEmpty_iff, ha, hd]

/-- The round trip of the spec: a well-formed `a$d` parses to its two halves. -/
theorem parseIdentity_append {a d : List Char} (ha : a ≠ []) (hd : d ≠ [])
    (hasep : '$' ∉ a) (hdsep : '$' ∉ d) :
    parseIdentity (a ++ '$' :: d) = some ⟨a, d⟩ :=
  parseIdentity_eq_some_iff.mpr ⟨ha, hd, hasep, hdsep, [], by simp, Or.inl rfl⟩

/-- `alice$a.example` parses to its two halves. -/
theorem parseIdentity_append_alice :
    "alice".toList ≠ [] ∧ "a.example".toList ≠ [] ∧ '$' ∉ "alice".toList ∧
      '$' ∉ "a.example".toList ∧
      parseIdentity ("alice".toList ++ '$' :: "a.example".toList) =
        some ⟨"alice".toList, "a.example".toList⟩ :=
  ⟨by decide, by decide, by decide, by decide,
    parseIdentity_append (by decide) (by decide) (by decide) (by decide)⟩

/-- `isValidIdentity` holds exactly for text whose first two `$`-fields are non-empty. -/
theorem isValidIdentity_iff (s : List Char) :
    isValidIdentity s = true ↔ ∃ a d, a ≠ [] ∧ d ≠ [] ∧ '$' ∉ a ∧ '$' ∉ d ∧
      ∃ tail, s = a ++ '$' :: d ++ tail ∧ (tail = [] ∨ tail.head? = some '$') := by
  simp only [isValidIdentity, Option.isSome_iff_exists, parseIdentity_eq_some_iff]
  constructor
  · rintro ⟨⟨a, d⟩, h⟩
    exact ⟨a, d, h⟩
  · rintro ⟨a, d, h⟩
    exact ⟨⟨a, d⟩, h⟩

/-- A second `$` is not rejected: `a$b$c` parses to `{a, b}`, whose rejoined form is
not the input. -/
theorem parseIdentity_extra_separator :
    parseIdentity "a$b$c".toList = some ⟨"a".toList, "b".toList⟩ ∧
      "a".toList ++ '$' :: "b".toList ≠ "a$b$c".toList := by
  decide

end Btps
