import KeyTransparency.Proofs.Wire.Head
import KeyTransparency.Wire.Exchange

/-!
# Requests, responses and results are read back

Everything that a client and a log send each other, and everything that a client prints and
remembers, is read back from both of its texts.
-/

namespace KeyTransparency.Wire

/-- A search key is an object with one member or the name of the distinguished key, so it is no
record, and its kind decides what is read. -/
instance : LawfulWire SearchKey where
  integral key := by
    cases key with
    | distinguished => exact .string (some "distinguished")
    | _ => exact integral_record (by simp [LawfulWire.integral])
  ne_null key := by cases key <;> rintro ⟨⟩
  ofJson?_toJson key := by
    cases key with
    | aci account =>
      exact congrArg (Option.map SearchKey.aci) (LawfulWire.ofJson?_toJson account)
    | e164 number =>
      exact congrArg (Option.map SearchKey.e164) (LawfulWire.ofJson?_toJson number)
    | usernameHash hash =>
      exact congrArg (Option.map SearchKey.usernameHash) (LawfulWire.ofJson?_toJson hash)
    | distinguished => rfl

/-! ## Proofs -/

instance : LawfulWire PrefixProof :=
  lawfulWire_of_describes (fun _ => rfl) (fun _ => rfl) fun proof => by
    constructor <;> simp [LawfulWire.integral]

instance : LawfulWire ProofStep :=
  lawfulWire_of_describes (fun _ => rfl) (fun _ => rfl) fun step => by
    constructor <;> simp [LawfulWire.integral]

instance : LawfulWire SearchProof :=
  lawfulWire_of_describes (fun _ => rfl) (fun _ => rfl) fun proof => by
    constructor <;> simp [LawfulWire.integral]

instance : LawfulWire UpdateValue :=
  lawfulWire_of_describes (fun _ => rfl) (fun _ => rfl) fun value => by
    constructor <;> simp [LawfulWire.integral]

instance : LawfulWire IdentifierProof :=
  lawfulWire_of_describes (fun _ => rfl) (fun _ => rfl) fun proof => by
    constructor <;> simp [LawfulWire.integral]

instance : LawfulWire MonitorProof :=
  lawfulWire_of_describes (fun _ => rfl) (fun _ => rfl) fun proof => by
    constructor <;> simp [LawfulWire.integral]

/-! ## Requests and responses -/

instance : LawfulWire SearchRequest :=
  lawfulWire_of_describes (fun _ => rfl) (fun _ => rfl)
    fun ⟨aci, e164, usernameHash, consistency⟩ => by
      cases e164 <;> cases usernameHash <;> constructor <;>
        simp [optionalMember, LawfulWire.integral]

instance : LawfulWire SearchResponse :=
  lawfulWire_of_describes (fun _ => rfl) (fun _ => rfl)
    fun ⟨treeHead, aci, e164, usernameHash⟩ => by
      cases e164 <;> cases usernameHash <;> constructor <;>
        simp [optionalMember, LawfulWire.integral]

instance : LawfulWire DistinguishedRequest :=
  lawfulWire_of_describes (fun _ => rfl) (fun _ => rfl) fun request => by
    constructor <;> simp [LawfulWire.integral]

instance : LawfulWire DistinguishedResponse :=
  lawfulWire_of_describes (fun _ => rfl) (fun _ => rfl) fun response => by
    constructor <;> simp [LawfulWire.integral]

instance : LawfulWire MonitorKey :=
  lawfulWire_of_describes (fun _ => rfl) (fun _ => rfl) fun key => by
    constructor <;> simp [LawfulWire.integral]

instance : LawfulWire MonitorRequest :=
  lawfulWire_of_describes (fun _ => rfl) (fun _ => rfl) fun request => by
    constructor <;> simp [LawfulWire.integral]

instance : LawfulWire MonitorResponse :=
  lawfulWire_of_describes (fun _ => rfl) (fun _ => rfl) fun response => by
    constructor <;> simp [LawfulWire.integral]

/-! ## Results -/

instance : LawfulWire VerifiedValue :=
  lawfulWire_of_describes (fun _ => rfl) (fun _ => rfl) fun value => by
    constructor <;> simp [LawfulWire.integral]

-- A result says null where it has no value for an identifier; a request leaves the member out.
instance : LawfulWire SearchResult :=
  lawfulWire_of_describes (fun _ => rfl) (fun _ => rfl)
    fun ⟨aci, e164, usernameHash, treeHead⟩ => by
      cases e164 <;> cases usernameHash <;> constructor <;>
        simp [nullable, LawfulWire.integral, Json.Integral.null]

instance : LawfulWire MonitoredKey :=
  lawfulWire_of_describes (fun _ => rfl) (fun _ => rfl) fun key => by
    constructor <;> simp [LawfulWire.integral]

instance : LawfulWire MonitorResult :=
  lawfulWire_of_describes (fun _ => rfl) (fun _ => rfl) fun result => by
    constructor <;> simp [LawfulWire.integral]

/-! ## The format -/

/-- Whatever clients and logs send each other, and whatever a client prints and remembers, is read
back from its compact text and from its indented one. -/
theorem readBack_format :
    (ReadBack Hash ∧ ReadBack CommitmentIndex ∧ ReadBack SearchKey) ∧
    (ReadBack TreeHead ∧ ReadBack AuditorTreeHead ∧ ReadBack FullTreeHead ∧
      ReadBack ConsistencyParameters ∧ ReadBack VerifiedTreeHead ∧ ReadBack LastSeen) ∧
    (ReadBack PrefixProof ∧ ReadBack ProofStep ∧ ReadBack SearchProof ∧ ReadBack UpdateValue ∧
      ReadBack IdentifierProof ∧ ReadBack MonitorProof) ∧
    (ReadBack SearchRequest ∧ ReadBack SearchResponse) ∧
    (ReadBack DistinguishedRequest ∧ ReadBack DistinguishedResponse) ∧
    (ReadBack MonitorKey ∧ ReadBack MonitorRequest ∧ ReadBack MonitorResponse) ∧
    (ReadBack VerifiedValue ∧ ReadBack SearchResult ∧ ReadBack MonitoredKey ∧
      ReadBack MonitorResult) := by
  and_intros <;> exact readBack

end KeyTransparency.Wire
