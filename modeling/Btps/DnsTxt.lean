import Mathlib.Data.List.Nodup
import Btps.Identity
import Btps.Pem

/-!
# DNS TXT records

A domain publishes `v=1.0.0; u=host[:port]; s=selector` under `_btps.<domain>`, and
each key `v=1.0.0; k=<type>; p=<base64>` under `<selector>._btps.<account>.<domain>`.
`getHostAndSelector` and `getDnsIdentityParts` parse an answer in the same way: the
strings are concatenated, split on `;`, each piece trimmed, split on `=` and its
fields trimmed, and only the pieces with exactly two fields are kept as entries of an
object. The resolver is a parameter: it answers a name with the records, or rejects
it with the JSON text of its error.
-/

namespace Btps

/-- Modelled from the spec: `BTPS_NAME_SPACE`, the reserved label `_btps`. -/
def btpsNameSpace : List Char := "_btps".toList

/-- Modelled from the spec: `BTP_PROTOCOL_VERSION`, the protocol version `1.0.0`. -/
def btpProtocolVersion : List Char := "1.0.0".toList

/-- The answer of `dns.resolveTxt`: records, each a list of strings. -/
abbrev TxtRecords := List (List (List Char))

/-- A resolver for `dns.resolveTxt`: the records of a name, or the JSON text of the
error it rejects with. -/
abbrev TxtResolver := List Char → Except (List Char) TxtRecords

/-- `txtRecords.map((r) => r.join('')).join('')`. -/
def flattenTxt (txtRecords : TxtRecords) : List Char := (txtRecords.map List.flatten).flatten

/-- One piece between semicolons: `s.trim().split('=').map((p) => p.trim())`. -/
def splitPair (s : List Char) : List (List Char) := ((trim s).splitOn '=').map trim

/-- The pieces kept by `.filter((pair) => pair.length === 2)`. -/
def txtPairs (flat : List Char) : List (List (List Char)) :=
  ((flat.splitOn ';').map splitPair).filter (·.length == 2)

/-- `Object.fromEntries(entries)[key]`: the entries are assigned in order, so the last
entry with the key gives the value; a missing key is `undefined`. -/
def fromEntries (entries : List (List (List Char))) (key : List Char) : Option (List Char) :=
  entries.foldl (fun acc entry => if entry.head? = some key then entry.get? 1 else acc) none

/-- `parts`: the object both lookups build from an answer. -/
def txtParts (txtRecords : TxtRecords) (key : List Char) : Option (List Char) :=
  fromEntries (txtPairs (flattenTxt txtRecords)) key

/-- The message of the error that both lookups throw when resolution fails. -/
def dnsResolutionFailed (name errorJson : List Char) : List Char :=
  "DNS resolution failed for ".toList ++ name ++ ": ".toList ++ errorJson

/-- `JSON.stringify` of the `TypeError` that `base64ToPem(undefined)` throws. -/
def typeErrorJson : List Char := "\x7b\x7d".toList

/-- The result of `getHostAndSelector`. -/
structure HostAndSelector where
  host : List Char
  selector : List Char
  deriving DecidableEq, Repr

/-- `getHostAndSelector`: `undefined` for an invalid identity, an empty answer, a
version other than `BTP_PROTOCOL_VERSION`, or a missing or empty `u` or `s`. -/
def getHostAndSelector (resolveTxt : TxtResolver) (identity : List Char) :
    Except (List Char) (Option HostAndSelector) :=
  match parseIdentity identity with
  | none => .ok none
  | some parsedIdentity =>
    let dnsName := btpsNameSpace ++ '.' :: parsedIdentity.domainName
    match resolveTxt dnsName with
    | .error e => .error (dnsResolutionFailed dnsName e)
    | .ok txtRecords =>
      if txtRecords.isEmpty then .ok none
      else
        let parts := txtParts txtRecords
        if parts "v".toList ≠ some btpProtocolVersion then .ok none
        else
          match parts "u".toList, parts "s".toList with
          | some host, some selector =>
            if host.isEmpty || selector.isEmpty then .ok none else .ok (some ⟨host, selector⟩)
          | _, _ => .ok none

/-- The `type` argument of `getDnsIdentityParts`. -/
inductive IdentityPartType
  | key
  | pem
  | version
  deriving DecidableEq, Repr

/-- `typeMap`: the record key of each part. -/
def typeMap : IdentityPartType → List Char
  | .key => "k".toList
  | .version => "v".toList
  | .pem => "p".toList

/-- A defined result of `getDnsIdentityParts`: one string, or all three parts. -/
inductive IdentityParts
  | text (value : List Char)
  | all (key version : Option (List Char)) (pem : List Char)
  deriving DecidableEq, Repr

/-- `base64ToPem(parts['p'])`: a missing `p` is `undefined`, on which `match` throws a
`TypeError`; the surrounding `catch` rethrows it as a resolution failure. -/
def pemOfParts (domainName : List Char) (parts : List Char → Option (List Char)) :
    Except (List Char) (List Char) :=
  match parts "p".toList with
  | some p => .ok (base64ToPem p)
  | none => .error (dnsResolutionFailed domainName typeErrorJson)

/-- `getDnsIdentityParts`: the parts of a key record, all three without a `type`.
Its resolution error names the domain, not the queried name. -/
def getDnsIdentityParts (resolveTxt : TxtResolver) (identity selector : List Char)
    (type : Option IdentityPartType) : Except (List Char) (Option IdentityParts) :=
  match parseIdentity identity with
  | none => .ok none
  | some ⟨accountName, domainName⟩ =>
    let dnsName := selector ++ '.' :: btpsNameSpace ++ '.' :: accountName ++ '.' :: domainName
    match resolveTxt dnsName with
    | .error e => .error (dnsResolutionFailed domainName e)
    | .ok txtRecords =>
      if txtRecords.isEmpty then .ok none
      else
        let parts := txtParts txtRecords
        match type with
        | none => (pemOfParts domainName parts).map fun pem =>
            some (.all (parts "k".toList) (parts "v".toList) pem)
        | some .pem => (pemOfParts domainName parts).map fun pem => some (.text pem)
        | some type => .ok ((parts (typeMap type)).map .text)

/-- `resolvePublicKey`: the published key of an identity and selector, as PEM. -/
def resolvePublicKey (resolveTxt : TxtResolver) (identity selector : List Char) :
    Except (List Char) (Option IdentityParts) :=
  getDnsIdentityParts resolveTxt identity selector (some .pem)

/-! ### Well-formed answers -/

/-- One `key=value` piece of a published answer, with the blanks around its key and
its value. -/
structure TxtEntry where
  key : List Char
  value : List Char
  keyPad : List Char × List Char
  valuePad : List Char × List Char
  deriving DecidableEq, Repr

/-- The text of an entry: blanks, key, blanks, `=`, blanks, value, blanks. -/
def TxtEntry.text (e : TxtEntry) : List Char :=
  e.keyPad.1 ++ e.key ++ e.keyPad.2 ++ '=' :: (e.valuePad.1 ++ e.value ++ e.valuePad.2)

/-- The shape of a published entry: a non-empty key without `=`, `;` or blanks, a value
without `;` and without blanks at its ends, and only blanks around them. The value may
contain `=`, as base64 padding does. -/
structure TxtEntry.WellFormed (e : TxtEntry) : Prop where
  key_ne_nil : e.key ≠ []
  key_chars : ∀ c ∈ e.key, c ≠ '=' ∧ c ≠ ';' ∧ isTrimmable c = false
  value_semicolon : ';' ∉ e.value
  value_head : ∀ c, e.value.head? = some c → isTrimmable c = false
  value_last : ∀ c, e.value.getLast? = some c → isTrimmable c = false
  pads : ∀ c ∈ e.keyPad.1 ++ e.keyPad.2 ++ e.valuePad.1 ++ e.valuePad.2, isTrimmable c = true

/-- An answer publishes `entries` when its strings concatenate to their texts joined
by `;`. -/
def Publishes (txtRecords : TxtRecords) (entries : List TxtEntry) : Prop :=
  flattenTxt txtRecords = [';'].intercalate (entries.map TxtEntry.text)

/-- Splitting at `x` gives one field more than there are `x`s. -/
theorem length_splitOn (x : Char) (s : List Char) : (s.splitOn x).length = s.count x + 1 := by
  induction s with
  | nil => simp [List.splitOn, List.splitOnP_nil]
  | cons c cs ih =>
    rw [List.splitOn, List.splitOnP_cons, List.count_cons]
    rw [List.splitOn] at ih
    by_cases hc : c = x
    · simp [hc, ih]
    · simp [hc, ih]

/-- Dropping a suffix stops at a character that fails the test. -/
theorem rdropWhile_append_cons {p : Char → Bool} (A B : List Char) {x : Char}
    (hx : p x = false) : (A ++ x :: B).rdropWhile p = A ++ x :: B.rdropWhile p := by
  induction B using List.reverseRecOn with
  | nil => simp [List.rdropWhile_concat_neg _ _ _ (by simp [hx] : ¬p x = true)]
  | append_singleton B y ih =>
    rw [← List.cons_append, ← List.append_assoc]
    by_cases hy : p y = true
    · rw [List.rdropWhile_concat_pos _ _ _ hy, List.rdropWhile_concat_pos _ _ _ hy, ih]
    · rw [List.rdropWhile_concat_neg _ _ _ hy, List.rdropWhile_concat_neg _ _ _ hy]
      simp

namespace TxtEntry

variable {e : TxtEntry}

/-- The key of a well-formed entry holds no character that `trim` removes. -/
theorem not_trimmable_of_mem_key (he : e.WellFormed) {c : Char} (hc : c ∈ e.key) :
    isTrimmable c = false := (he.key_chars c hc).2.2

/-- `trim` of a well-formed entry's text drops the blanks before its key and those at its end. -/
theorem trim_text (he : e.WellFormed) :
    trim e.text = e.key ++ e.keyPad.2 ++
      '=' :: (e.valuePad.1 ++ e.value ++ e.valuePad.2).rdropWhile isTrimmable := by
  have hpad : ∀ c ∈ e.keyPad.1, isTrimmable c = true := fun c hc => he.pads c (by simp [hc])
  rw [trim, text, List.append_assoc, List.append_assoc, dropWhile_append_of_all _ _ hpad,
    dropWhile_eq_self fun c hc => not_trimmable_of_mem_key he (by
      rw [List.head?_append_of_ne_nil _ he.key_ne_nil] at hc; exact List.mem_of_mem_head? hc),
    ← List.append_assoc, rdropWhile_append_cons _ _ (by decide)]

/-- Splitting an entry's text on `=` gives its key, then the fields of its value. -/
theorem splitPair_text (he : e.WellFormed) :
    splitPair e.text = e.key ::
      (((e.valuePad.1 ++ e.value ++ e.valuePad.2).rdropWhile isTrimmable).splitOn '=').map trim := by
  have hfree : '=' ∉ e.key ++ e.keyPad.2 := by
    intro h
    rcases List.mem_append.mp h with h | h
    · exact (he.key_chars _ h).1 rfl
    · exact absurd (he.pads '=' (by simp [h])) (by decide)
  rw [splitPair, trim_text he, splitOn_append_cons hfree, List.map_cons,
    ← List.nil_append (e.key ++ e.keyPad.2), ← List.append_assoc,
    trim_pad (by simp) (fun c hc => he.pads c (by simp [hc]))
      (fun c hc => not_trimmable_of_mem_key he (List.mem_of_mem_head? hc))
      (fun c hc => not_trimmable_of_mem_key he (List.mem_of_mem_getLast? hc))]

/-- The trailing blanks dropped, a value's field is the value itself after its leading
blanks. -/
theorem rdropWhile_value (he : e.WellFormed) :
    (e.valuePad.1 ++ e.value ++ e.valuePad.2).rdropWhile isTrimmable =
      if e.value = [] then [] else e.valuePad.1 ++ e.value := by
  rw [rdropWhile_append_of_all _ _ fun c hc => he.pads c (by simp [hc])]
  split
  · rename_i hv
    simpa [hv, List.rdropWhile_eq_nil_iff] using fun c hc => he.pads c (by simp [hc])
  · exact rdropWhile_eq_self fun c hc => he.value_last c (by
      rw [List.getLast?_append_of_ne_nil _ ‹_›] at hc; exact hc)

/-- An entry whose value has no `=` is read as the pair of its key and value. -/
theorem splitPair_text_of_not_mem (he : e.WellFormed) (hv : '=' ∉ e.value) :
    splitPair e.text = [e.key, e.value] := by
  rw [splitPair_text he, rdropWhile_value he]
  split
  · rename_i hnil
    simp [hnil, List.splitOn, List.splitOnP_nil, trim]
  · have hfree : '=' ∉ e.valuePad.1 ++ e.value := by
      intro h
      rcases List.mem_append.mp h with h | h
      · exact absurd (he.pads '=' (by simp [h])) (by decide)
      · exact hv h
    rw [splitOn_of_not_mem hfree, List.map_singleton, ← List.append_nil (e.valuePad.1 ++ e.value),
      trim_pad (fun c hc => he.pads c (by simp [hc])) (by simp) he.value_head he.value_last]

/-- An entry whose value contains `=` has at least three fields and is dropped. -/
theorem length_splitPair_text_of_mem (he : e.WellFormed) (hv : '=' ∈ e.value) :
    (splitPair e.text).length ≠ 2 := by
  have hne : e.value ≠ [] := List.ne_nil_of_mem hv
  have hcount : 0 < (e.valuePad.1 ++ e.value).count '=' :=
    List.count_pos_iff.mpr (List.mem_append_right _ hv)
  rw [splitPair_text he, rdropWhile_value he, if_neg hne, List.length_cons, List.length_map,
    length_splitOn]
  omega

/-- The text of a well-formed entry holds no `;`. -/
theorem semicolon_not_mem_text (he : e.WellFormed) : ';' ∉ e.text := by
  intro h
  simp only [text, List.mem_append, List.mem_cons] at h
  rcases h with ((h | h) | h) | h | (h | h) | h
  · exact absurd (he.pads ';' (by simp [h])) (by decide)
  · exact (he.key_chars ';' h).2.1 rfl
  · exact absurd (he.pads ';' (by simp [h])) (by decide)
  · exact absurd h (by decide)
  · exact absurd (he.pads ';' (by simp [h])) (by decide)
  · exact he.value_semicolon h
  · exact absurd (he.pads ';' (by simp [h])) (by decide)

/-- The pair an entry contributes to the object: none when its value contains `=`. -/
def pair (e : TxtEntry) : Option (List (List Char)) :=
  if '=' ∈ e.value then none else some [e.key, e.value]

end TxtEntry

/-- The pairs of a published answer are those of its entries whose value has no `=`. -/
theorem txtPairs_of_publishes {txtRecords : TxtRecords} {entries : List TxtEntry}
    (hwf : ∀ e ∈ entries, e.WellFormed) (hpub : Publishes txtRecords entries) :
    txtPairs (flattenTxt txtRecords) = entries.filterMap TxtEntry.pair := by
  have hkept : ∀ es : List TxtEntry, (∀ e ∈ es, e.WellFormed) →
      ((es.map TxtEntry.text).map splitPair).filter (·.length == 2) =
        es.filterMap TxtEntry.pair := by
    intro es hes
    induction es with
    | nil => rfl
    | cons e es ih =>
      have he := hes e (List.mem_cons_self _ _)
      rw [List.map_cons, List.map_cons, List.filter_cons, List.filterMap_cons,
        ih fun e' h => hes e' (List.mem_cons_of_mem _ h), TxtEntry.pair]
      by_cases hv : '=' ∈ e.value
      · simp [hv, TxtEntry.length_splitPair_text_of_mem he hv]
      · simp [hv, TxtEntry.splitPair_text_of_not_mem he hv]
  rw [txtPairs, hpub]
  cases entries with
  | nil => rfl
  | cons e es =>
    rw [List.splitOn_intercalate _ _ (fun l hl => by
      obtain ⟨e', he', rfl⟩ := List.mem_map.mp hl
      exact TxtEntry.semicolon_not_mem_text (hwf e' he')) (by simp)]
    exact hkept _ hwf

/-- Looking up a key that no entry carries keeps the value found so far. -/
theorem foldl_fromEntries_of_not_mem (key : List Char) (acc : Option (List Char))
    (es : List TxtEntry) (hkey : key ∉ es.map TxtEntry.key) :
    (es.filterMap TxtEntry.pair).foldl
      (fun acc entry => if entry.head? = some key then entry.get? 1 else acc) acc = acc := by
  induction es with
  | nil => rfl
  | cons e es ih =>
    have hne : e.key ≠ key := fun h => hkey (by simp [h])
    have ih := ih fun h => hkey (List.mem_cons_of_mem _ h)
    rw [List.filterMap_cons, TxtEntry.pair]
    by_cases hv : '=' ∈ e.value
    · simpa [hv] using ih
    · simpa [hv, hne] using ih

/-- With distinct keys, the object maps a key to the value of its entry when that value
has no `=`, and to `undefined` otherwise. -/
theorem fromEntries_filterMap (key : List Char) (es : List TxtEntry)
    (hkeys : (es.map TxtEntry.key).Nodup) :
    fromEntries (es.filterMap TxtEntry.pair) key =
      (es.find? (·.key == key)).bind fun e => if '=' ∈ e.value then none else some e.value := by
  suffices ∀ acc, (es.filterMap TxtEntry.pair).foldl
      (fun acc entry => if entry.head? = some key then entry.get? 1 else acc) acc =
      match es.find? (·.key == key) with
      | none => acc
      | some e => if '=' ∈ e.value then acc else some e.value by
    rw [fromEntries, this]
    cases es.find? (·.key == key) <;> simp
  induction es with
  | nil => intro acc; rfl
  | cons e es ih =>
    intro acc
    obtain ⟨he, hes⟩ := List.nodup_cons.mp hkeys
    rw [List.filterMap_cons, TxtEntry.pair]
    by_cases hk : e.key = key
    · subst hk
      by_cases hv : '=' ∈ e.value
      · simpa [hv] using foldl_fromEntries_of_not_mem e.key acc es he
      · simpa [hv] using foldl_fromEntries_of_not_mem e.key (some e.value) es he
    · by_cases hv : '=' ∈ e.value
      · simpa [hv, hk] using ih hes acc
      · simpa [hv, hk] using ih hes acc

/-- With distinct keys, looking an entry's key up finds that entry. -/
theorem find?_key_eq_some {entries : List TxtEntry} (hkeys : (entries.map TxtEntry.key).Nodup)
    {e : TxtEntry} (he : e ∈ entries) : entries.find? (·.key == e.key) = some e := by
  obtain ⟨e', hfind⟩ := Option.ne_none_iff_exists'.mp (by
    simpa [List.find?_eq_none] using ⟨e, he, rfl⟩ : entries.find? (·.key == e.key) ≠ none)
  rw [hfind, List.inj_on_of_nodup_map hkeys (List.mem_of_find?_eq_some hfind) he
    (by simpa using List.find?_some hfind)]

/-- Every key of a published answer with distinct keys is read as its value, except
that a value containing `=` is lost. -/
theorem txtParts_of_publishes {txtRecords : TxtRecords} {entries : List TxtEntry}
    (hwf : ∀ e ∈ entries, e.WellFormed) (hkeys : (entries.map TxtEntry.key).Nodup)
    (hpub : Publishes txtRecords entries) (key : List Char) :
    txtParts txtRecords key =
      (entries.find? (·.key == key)).bind fun e =>
        if '=' ∈ e.value then none else some e.value := by
  rw [txtParts, txtPairs_of_publishes hwf hpub, fromEntries_filterMap key entries hkeys]

/-- A key is read as a value exactly when a published entry carries that key and value
and the value has no `=`. -/
theorem txtParts_eq_some_iff {txtRecords : TxtRecords} {entries : List TxtEntry}
    (hwf : ∀ e ∈ entries, e.WellFormed) (hkeys : (entries.map TxtEntry.key).Nodup)
    (hpub : Publishes txtRecords entries) {key value : List Char} :
    txtParts txtRecords key = some value ↔
      ∃ e ∈ entries, e.key = key ∧ e.value = value ∧ '=' ∉ e.value := by
  rw [txtParts_of_publishes hwf hkeys hpub]
  constructor
  · intro h
    obtain ⟨e, hfind, h⟩ := Option.bind_eq_some.mp h
    split at h
    · cases h
    · cases h
      exact ⟨e, List.mem_of_find?_eq_some hfind, by simpa using List.find?_some hfind, rfl, ‹_›⟩
  · rintro ⟨e, he, rfl, rfl, hv⟩
    simp [find?_key_eq_some hkeys he, hv]

/-- `getHostAndSelector` on an answer of the domain's `_btps` name. -/
theorem getHostAndSelector_of_answer {resolveTxt : TxtResolver} {identity : List Char}
    {p : ParsedIdentity} {txtRecords : TxtRecords} (hid : parseIdentity identity = some p)
    (hres : resolveTxt (btpsNameSpace ++ '.' :: p.domainName) = .ok txtRecords)
    (hne : txtRecords ≠ []) {host selector : List Char} :
    getHostAndSelector resolveTxt identity = .ok (some ⟨host, selector⟩) ↔
      txtParts txtRecords "v".toList = some btpProtocolVersion ∧
        txtParts txtRecords "u".toList = some host ∧ txtParts txtRecords "s".toList = some selector ∧
        host ≠ [] ∧ selector ≠ [] := by
  simp only [getHostAndSelector, hid, hres, List.isEmpty_iff, hne, if_false]
  generalize txtParts txtRecords = parts
  generalize parts "v".toList = pv
  generalize parts "u".toList = pu
  generalize parts "s".toList = ps
  rcases pu with _ | u <;> rcases ps with _ | s <;>
    by_cases hv : pv = some btpProtocolVersion <;> simp [hv]
  by_cases hemp : u = [] ∨ s = []
  · simp only [List.isEmpty_iff, Bool.or_eq_true, decide_eq_true_eq, hemp, if_true]
    exact ⟨fun h => (by cases h), fun ⟨hu, hs, hh, hs'⟩ => (by subst hu hs; tauto)⟩
  · simp only [List.isEmpty_iff, Bool.or_eq_true, decide_eq_true_eq, hemp, if_false,
      Except.ok.injEq, Option.some.injEq, HostAndSelector.mk.injEq]
    exact ⟨fun ⟨hu, hs⟩ => ⟨hu, hs, hu ▸ fun h => hemp (Or.inl h), hs ▸ fun h => hemp (Or.inr h)⟩,
      fun ⟨hu, hs, _⟩ => ⟨hu, hs⟩⟩

/-- On a published answer with distinct keys, `getHostAndSelector` returns a host and
selector exactly when the answer carries the protocol version and non-empty `u` and
`s` values, none of them containing `=`. -/
theorem getHostAndSelector_of_publishes {resolveTxt : TxtResolver} {identity : List Char}
    {p : ParsedIdentity} {txtRecords : TxtRecords} {entries : List TxtEntry}
    (hid : parseIdentity identity = some p)
    (hres : resolveTxt (btpsNameSpace ++ '.' :: p.domainName) = .ok txtRecords)
    (hne : txtRecords ≠ []) (hwf : ∀ e ∈ entries, e.WellFormed)
    (hkeys : (entries.map TxtEntry.key).Nodup) (hpub : Publishes txtRecords entries)
    {host selector : List Char} :
    getHostAndSelector resolveTxt identity = .ok (some ⟨host, selector⟩) ↔
      (∃ e ∈ entries, e.key = "v".toList ∧ e.value = btpProtocolVersion) ∧
        (∃ e ∈ entries, e.key = "u".toList ∧ e.value = host ∧ '=' ∉ host) ∧
        (∃ e ∈ entries, e.key = "s".toList ∧ e.value = selector ∧ '=' ∉ selector) ∧
        host ≠ [] ∧ selector ≠ [] := by
  rw [getHostAndSelector_of_answer hid hres hne, txtParts_eq_some_iff hwf hkeys hpub,
    txtParts_eq_some_iff hwf hkeys hpub, txtParts_eq_some_iff hwf hkeys hpub]
  have hver : '=' ∉ btpProtocolVersion := by decide
  constructor
  · rintro ⟨⟨e, he, hk, hv, -⟩, ⟨e', he', hk', rfl, hv'⟩, ⟨e'', he'', hk'', rfl, hv''⟩, hh, hs⟩
    exact ⟨⟨e, he, hk, hv⟩, ⟨e', he', hk', rfl, hv'⟩, ⟨e'', he'', hk'', rfl, hv''⟩, hh, hs⟩
  · rintro ⟨⟨e, he, hk, hv⟩, ⟨e', he', hk', rfl, hv'⟩, ⟨e'', he'', hk'', rfl, hv''⟩, hh, hs⟩
    exact ⟨⟨e, he, hk, hv, hv ▸ hver⟩, ⟨e', he', hk', rfl, hv'⟩, ⟨e'', he'', hk'', rfl, hv''⟩,
      hh, hs⟩

/-- The answer `v=1.0.0; u=btps.a.example:3443; s=btps1` for `alice$a.example`. -/
theorem getHostAndSelector_of_publishes_sample :
    let entries : List TxtEntry := [⟨"v".toList, "1.0.0".toList, ([], []), ([], [])⟩,
      ⟨"u".toList, "btps.a.example:3443".toList, ([' '], []), ([], [])⟩,
      ⟨"s".toList, "btps1".toList, ([' '], []), ([], [])⟩]
    let txtRecords : TxtRecords := [["v=1.0.0; u=btps.a.example:3443; s=btps1".toList]]
    (∀ e ∈ entries, e.WellFormed) ∧ (entries.map TxtEntry.key).Nodup ∧
      Publishes txtRecords entries ∧
      (getHostAndSelector (fun _ => .ok txtRecords) "alice$a.example".toList =
          .ok (some ⟨"btps.a.example:3443".toList, "btps1".toList⟩) ↔
        (∃ e ∈ entries, e.key = "v".toList ∧ e.value = btpProtocolVersion) ∧
        (∃ e ∈ entries, e.key = "u".toList ∧ e.value = "btps.a.example:3443".toList ∧
          '=' ∉ "btps.a.example:3443".toList) ∧
        (∃ e ∈ entries, e.key = "s".toList ∧ e.value = "btps1".toList ∧ '=' ∉ "btps1".toList) ∧
        "btps.a.example:3443".toList ≠ [] ∧ "btps1".toList ≠ []) := by
  intro entries txtRecords
  have hwf : ∀ e ∈ entries, e.WellFormed := by
    simp only [entries, List.mem_cons, List.mem_singleton, List.not_mem_nil, or_false]
    rintro e (rfl | rfl | rfl) <;>
      exact ⟨by decide, by decide, by decide, fun c h => by cases h; decide,
        fun c h => by cases h; decide, by decide⟩
  have hkeys : (entries.map TxtEntry.key).Nodup := by decide
  have hpub : Publishes txtRecords entries := by unfold Publishes; decide
  exact ⟨hwf, hkeys, hpub, getHostAndSelector_of_publishes
    (by decide : parseIdentity "alice$a.example".toList = some ⟨"alice".toList, "a.example".toList⟩)
    (rfl : (fun _ => .ok txtRecords : TxtResolver) (btpsNameSpace ++ '.' :: "a.example".toList) =
      .ok txtRecords)
    (by simp [txtRecords]) hwf hkeys hpub⟩

/-- On a published key answer with distinct keys, the `pem` lookup returns the armoured
value of the `p` entry when it has no `=`, and throws a resolution failure when it has. -/
theorem getDnsIdentityParts_pem_of_publishes {resolveTxt : TxtResolver}
    {identity selector a d : List Char} {txtRecords : TxtRecords} {entries : List TxtEntry}
    (hid : parseIdentity identity = some ⟨a, d⟩)
    (hres : resolveTxt (selector ++ '.' :: btpsNameSpace ++ '.' :: a ++ '.' :: d) =
      .ok txtRecords)
    (hne : txtRecords ≠ []) (hwf : ∀ e ∈ entries, e.WellFormed)
    (hkeys : (entries.map TxtEntry.key).Nodup) (hpub : Publishes txtRecords entries)
    {e : TxtEntry} (he : e ∈ entries) (hkey : e.key = "p".toList) :
    getDnsIdentityParts resolveTxt identity selector (some .pem) =
      if '=' ∈ e.value then .error (dnsResolutionFailed d typeErrorJson)
      else .ok (some (.text (base64ToPem e.value))) := by
  have hparts : txtParts txtRecords "p".toList = if '=' ∈ e.value then none else some e.value := by
    rw [txtParts_of_publishes hwf hkeys hpub, ← hkey, find?_key_eq_some hkeys he, Option.some_bind]
  simp only [getDnsIdentityParts, hid, hres, List.isEmpty_iff, hne, if_false, pemOfParts, hparts]
  by_cases hv : '=' ∈ e.value <;> simp [hv, Except.map]

/-- The key answer `v=1.0.0; k=rsa; p=QUJD` of selector `btps1` for `alice$a.example`. -/
theorem getDnsIdentityParts_pem_of_publishes_sample :
    let entries : List TxtEntry := [⟨"v".toList, "1.0.0".toList, ([], []), ([], [])⟩,
      ⟨"k".toList, "rsa".toList, ([' '], []), ([], [])⟩,
      ⟨"p".toList, "QUJD".toList, ([' '], []), ([], [])⟩]
    let txtRecords : TxtRecords := [["v=1.0.0; k=rsa; p=QUJD".toList]]
    (∀ e ∈ entries, e.WellFormed) ∧ (entries.map TxtEntry.key).Nodup ∧
      Publishes txtRecords entries ∧
      getDnsIdentityParts (fun _ => .ok txtRecords) "alice$a.example".toList "btps1".toList
          (some .pem) =
        if '=' ∈ "QUJD".toList then .error (dnsResolutionFailed "a.example".toList typeErrorJson)
        else .ok (some (.text (base64ToPem "QUJD".toList))) := by
  intro entries txtRecords
  have hwf : ∀ e ∈ entries, e.WellFormed := by
    simp only [entries, List.mem_cons, List.mem_singleton, List.not_mem_nil, or_false]
    rintro e (rfl | rfl | rfl) <;>
      exact ⟨by decide, by decide, by decide, fun c h => by cases h; decide,
        fun c h => by cases h; decide, by decide⟩
  have hkeys : (entries.map TxtEntry.key).Nodup := by decide
  have hpub : Publishes txtRecords entries := by unfold Publishes; decide
  exact ⟨hwf, hkeys, hpub, getDnsIdentityParts_pem_of_publishes
    (by decide : parseIdentity "alice$a.example".toList = some ⟨"alice".toList, "a.example".toList⟩)
    (rfl : (fun _ => .ok txtRecords : TxtResolver)
      ("btps1".toList ++ '.' :: btpsNameSpace ++ '.' :: "alice".toList ++ '.' :: "a.example".toList) =
      .ok txtRecords)
    (by simp [txtRecords]) hwf hkeys hpub (by decide : entries[2] ∈ entries) rfl⟩

/-- A key whose base64 text ends in `=` padding is split into three fields and dropped,
so the `pem` lookup throws instead of returning the armoured key. -/
theorem getDnsIdentityParts_padded_key :
    txtParts [["v=1.0.0; k=rsa; p=QUI=".toList]] "p".toList = none ∧
      getDnsIdentityParts (fun _ => .ok [["v=1.0.0; k=rsa; p=QUI=".toList]])
          "alice$a.example".toList "btps1".toList (some .pem) =
        .error (dnsResolutionFailed "a.example".toList typeErrorJson) :=
  ⟨by decide, rfl⟩

end Btps
