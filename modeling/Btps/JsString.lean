import Mathlib.Data.List.Basic
import Mathlib.Data.List.DropRight

/-!
# JavaScript string operations

The utilities of the SDK work on JavaScript strings with `split`, `trim` and
`replace`. A string is modelled as its list of characters; every input that the
properties below concern is plain text, where code units and characters agree.
`split` with a one-character separator is `List.splitOn`.
-/

namespace Btps

/-- ECMAScript `LineTerminator`: line feed, carriage return, and the line and
paragraph separators. The regular-expression dot matches any other character. -/
def isLineTerminator (c : Char) : Bool := [0x0A, 0x0D, 0x2028, 0x2029].contains c.toNat

/-- ECMAScript `WhiteSpace`: tab, vertical tab, form feed, the byte-order mark and
the space separators of category `Zs`. -/
def isWhiteSpace (c : Char) : Bool :=
  [0x09, 0x0B, 0x0C, 0x20, 0xA0, 0x1680, 0x202F, 0x205F, 0x3000, 0xFEFF].contains c.toNat ||
    (0x2000 ≤ c.toNat && c.toNat ≤ 0x200A)

/-- The characters that `String.prototype.trim` strips from both ends. -/
def isTrimmable (c : Char) : Bool := isWhiteSpace c || isLineTerminator c

/-- `s.trim()`. -/
def trim (s : List Char) : List Char := (s.dropWhile isTrimmable).rdropWhile isTrimmable

/-- `s.replace(/p/, '')` for a pattern `p` without metacharacters: the first
occurrence of `p` is removed. -/
def replaceFirst (pattern : List Char) : List Char → List Char
  | [] => []
  | c :: cs => if pattern.isPrefixOf (c :: cs) then (c :: cs).drop pattern.length
      else c :: replaceFirst pattern cs

/-- `s.replace(/\r?\n/g, '')`: every line feed is removed, together with a carriage
return right before it. -/
def removeLineBreaks : List Char → List Char
  | '\r' :: '\n' :: cs => removeLineBreaks cs
  | '\n' :: cs => removeLineBreaks cs
  | c :: cs => c :: removeLineBreaks cs
  | [] => []

/-! ### Trimming -/

/-- Dropping a prefix drops nothing when the first character fails the test. -/
theorem dropWhile_eq_self {p : Char → Bool} {s : List Char}
    (h : ∀ c, s.head? = some c → p c = false) : s.dropWhile p = s := by
  cases s with
  | nil => rfl
  | cons c cs => simp [List.dropWhile_cons, h c rfl]

/-- Dropping a suffix drops nothing when the last character fails the test. -/
theorem rdropWhile_eq_self {p : Char → Bool} {s : List Char}
    (h : ∀ c, s.getLast? = some c → p c = false) : s.rdropWhile p = s :=
  List.rdropWhile_eq_self_iff.mpr fun hs => by simpa using h _ (List.getLast?_eq_getLast s hs)

/-- A string whose first and last characters are not blank is its own trim. -/
theorem trim_eq_self {s : List Char}
    (hhead : ∀ c, s.head? = some c → isTrimmable c = false)
    (hlast : ∀ c, s.getLast? = some c → isTrimmable c = false) : trim s = s := by
  rw [trim, dropWhile_eq_self hhead, rdropWhile_eq_self hlast]

/-- Appended characters that all pass the test are dropped with the rest of the suffix. -/
theorem rdropWhile_append_of_all {p : Char → Bool} (s ws : List Char)
    (hws : ∀ c ∈ ws, p c = true) : (s ++ ws).rdropWhile p = s.rdropWhile p := by
  induction ws using List.reverseRecOn with
  | nil => simp
  | append_singleton ws c ih =>
    rw [← List.append_assoc, List.rdropWhile_concat_pos _ _ _ (hws c (by simp))]
    exact ih fun d hd => hws d (by simp [hd])

/-- Prepended characters that all pass the test are dropped with the rest of the prefix. -/
theorem dropWhile_append_of_all {p : Char → Bool} (ws s : List Char)
    (hws : ∀ c ∈ ws, p c = true) : (ws ++ s).dropWhile p = s.dropWhile p := by
  induction ws with
  | nil => rfl
  | cons c ws ih =>
    rw [List.cons_append, List.dropWhile_cons_of_pos (hws c (by simp))]
    exact ih fun d hd => hws d (by simp [hd])

/-- Trimming removes blanks around a string whose ends are not blank. -/
theorem trim_pad {ws s ws' : List Char} (hws : ∀ c ∈ ws, isTrimmable c = true)
    (hws' : ∀ c ∈ ws', isTrimmable c = true)
    (hhead : ∀ c, s.head? = some c → isTrimmable c = false)
    (hlast : ∀ c, s.getLast? = some c → isTrimmable c = false) :
    trim (ws ++ s ++ ws') = s := by
  rw [trim, List.append_assoc, dropWhile_append_of_all _ _ hws]
  cases s with
  | nil => simp [List.dropWhile_eq_nil_iff.mpr hws']
  | cons c cs =>
    rw [dropWhile_eq_self (by simpa using hhead), rdropWhile_append_of_all _ _ hws',
      rdropWhile_eq_self hlast]

/-! ### Literal replacement -/

/-- Removing the first occurrence of a pattern that starts the string. -/
theorem replaceFirst_append (pattern s : List Char) :
    replaceFirst pattern (pattern ++ s) = s := by
  cases h : pattern ++ s with
  | nil => obtain ⟨rfl, rfl⟩ := List.append_eq_nil.mp h; rfl
  | cons c cs =>
    rw [replaceFirst, ← h, if_pos (List.isPrefixOf_iff_prefix.mpr (List.prefix_append _ _)),
      List.drop_left]

/-- The first occurrence of a pattern is found after any text that does not
contain the pattern's first character. -/
theorem replaceFirst_skip {pattern : List Char} {c₀ : Char} (hp : pattern.head? = some c₀)
    {xs : List Char} (hxs : c₀ ∉ xs) (s : List Char) :
    replaceFirst pattern (xs ++ s) = xs ++ replaceFirst pattern s := by
  induction xs with
  | nil => rfl
  | cons x xs ih =>
    have hx : x ≠ c₀ := fun h => hxs (h ▸ List.mem_cons_self _ _)
    have hno : pattern.isPrefixOf (x :: (xs ++ s)) = false := by
      cases pattern with
      | nil => simp at hp
      | cons p ps =>
        simp only [List.head?_cons, Option.some.injEq] at hp
        simp [List.isPrefixOf, hp, Ne.symm hx]
    rw [List.cons_append, replaceFirst, if_neg (by simp [hno]),
      ih fun h => hxs (List.mem_cons_of_mem _ h), List.cons_append]

/-! ### Line breaks -/

/-- Without carriage returns, removing line breaks removes exactly the line feeds. -/
theorem removeLineBreaks_eq_filter {s : List Char} (hs : '\r' ∉ s) :
    removeLineBreaks s = s.filter (· != '\n') := by
  induction s with
  | nil => rfl
  | cons c cs ih =>
    have hc : c ≠ '\r' := fun h => hs (h ▸ List.mem_cons_self _ _)
    have ih := ih fun h => hs (List.mem_cons_of_mem _ h)
    by_cases hn : c = '\n'
    · subst hn
      simp [removeLineBreaks.eq_2, ih]
    · rw [removeLineBreaks.eq_3 _ _ (fun _ h _ => hc h) hn,
        List.filter_cons_of_pos (by simpa using hn), ih]

end Btps
