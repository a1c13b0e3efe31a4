import Btps.JsString

/-!
# Server responses

`BtpServerResponseSchema` checks a server's response in two places that this repository
writes out: the pattern its `version` must match, and a refinement over the parsed object
that ties a signature to its signer and selector, and an encryption to a text document.
Each check adds issues, each with the path of the field it names and a message. The
object's other fields are checked by schemas imported from outside this repository.

Every issue the refinement adds names the one field it checks, in its path and in its
message (`serverResponseIssues_name_field`).
-/

namespace Btps

/-- An issue that a check adds: the path of the field it names, and its message. -/
structure Issue where
  path : List (List Char)
  message : List Char
  deriving DecidableEq, Repr

/-! ### The version pattern -/

/-- `\d+` followed by what `rest` matches: a digit, then more of the run or the rest. -/
def matchDigitsThen (rest : List Char → Bool) : List Char → Bool
  | [] => false
  | c :: cs => c.isDigit && (matchDigitsThen rest cs || rest cs)

/-- `\.` followed by what `rest` matches. -/
def matchDotThen (rest : List Char → Bool) : List Char → Bool
  | [] => false
  | c :: cs => c == '.' && rest cs

/-- `/^\d+\.\d+\.\d+$/.test(version)`. -/
def isSemanticVersion : List Char → Bool :=
  matchDigitsThen <| matchDotThen <| matchDigitsThen <| matchDotThen <|
    matchDigitsThen List.isEmpty

/-- The message of the version pattern. -/
def versionMessage : List Char :=
  "Version must be in semantic versioning format (e.g., 1.0.0)".toList

/-- `version: z.string().regex(/^\d+\.\d+\.\d+$/, ...)`: the issue for a version that
does not match. -/
def versionIssues (version : List Char) : List Issue :=
  if isSemanticVersion version then [] else [⟨["version".toList], versionMessage⟩]

/-! ### The refinement -/

/-- The `document` of a response: text, as an encrypted document always is, or one of the
response documents, whose fields the refinement does not read. -/
inductive ResponseDocument
  | text (s : List Char)
  | docs
  deriving DecidableEq, Repr

/-- The fields of a parsed `BTPServerResponse` that the refinement reads. The signature
and the encryption are objects whose schemas live outside this repository; only whether
they are present counts here. -/
structure ServerResponse where
  document : Option ResponseDocument
  signature : Bool
  encryption : Bool
  signedBy : Option (List Char)
  selector : Option (List Char)
  deriving DecidableEq, Repr

/-- JavaScript truthiness of an optional string: present and not empty. -/
def truthy : Option (List Char) → Bool
  | some s => !s.isEmpty
  | none => false

/-- `typeof document === 'string'`; an absent document is `undefined`. -/
def isStringDocument : Option ResponseDocument → Bool
  | some (.text _) => true
  | _ => false

/-- The check that a signed response names `field`, as the refinement makes it for
`signedBy` and for `selector`. -/
def requiredWithSignature (field : List Char) (value : Option (List Char)) : List Issue :=
  if truthy value then []
  else [⟨[field], field ++ " is required when signature is present".toList⟩]

/-- The message for an encrypted response whose document is not text. -/
def encryptedDocumentMessage : List Char := "When encrypted, document must be a string".toList

/-- The `superRefine` callback of `BtpServerResponseSchema`: the issues it adds, in
order. -/
def serverResponseIssues (data : ServerResponse) : List Issue :=
  (if data.signature then
    requiredWithSignature "signedBy".toList data.signedBy ++
      requiredWithSignature "selector".toList data.selector
  else []) ++
  (if data.encryption && !isStringDocument data.document then
    [⟨["document".toList], encryptedDocumentMessage⟩]
  else [])

/-- The issue of a signed response that lacks `field` names `field`. -/
theorem mem_requiredWithSignature {field : List Char} {value : Option (List Char)}
    {issue : Issue} (h : issue ∈ requiredWithSignature field value) :
    issue = ⟨[field], field ++ " is required when signature is present".toList⟩ := by
  unfold requiredWithSignature at h
  split at h
  · cases h
  · exact List.mem_singleton.mp h

/-- Every issue of the refinement names the one field it checks, in its path and in its
message. -/
theorem serverResponseIssues_name_field {data : ServerResponse} {issue : Issue}
    (h : issue ∈ serverResponseIssues data) :
    ∃ field, issue.path = [field] ∧ field <:+: issue.message := by
  rcases List.mem_append.mp h with h | h <;> split at h
  · rcases List.mem_append.mp h with h | h <;> obtain rfl := mem_requiredWithSignature h <;>
      exact ⟨_, rfl, (List.prefix_append _ _).isInfix⟩
  · cases h
  · obtain rfl := List.mem_singleton.mp h
    exact ⟨_, rfl, "When encrypted, ".toList, " must be a string".toList, rfl⟩
  · cases h

end Btps
