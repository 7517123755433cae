import KeyTransparency.Proofs.Wire.Basic
import KeyTransparency.Wire.Head

/-!
# Heads are read back

The heads that a log sends and those that a client remembers are read back from what is written for
them, whichever of their optional members are there.
-/

namespace KeyTransparency.Wire

instance : LawfulWire TreeHead :=
  lawfulWire_of_describes (fun _ => rfl) (fun _ => rfl) fun head => by
    constructor <;> simp [LawfulWire.integral]

-- The members of a head with optional ones are only known once it is known which of them are there.
instance : LawfulWire AuditorTreeHead :=
  lawfulWire_of_describes (fun _ => rfl) (fun _ => rfl) fun ⟨treeHead, rootValue, consistency⟩ => by
    cases rootValue <;> constructor <;> simp [optionalMember, LawfulWire.integral]

instance : LawfulWire FullTreeHead :=
  lawfulWire_of_describes (fun _ => rfl) (fun _ => rfl)
    fun ⟨treeHead, consistencyToLast, consistencyToDistinguished, auditorTreeHead⟩ => by
      cases auditorTreeHead <;> constructor <;> simp [optionalMember, LawfulWire.integral]

instance : LawfulWire ConsistencyParameters :=
  lawfulWire_of_describes (fun _ => rfl) (fun _ => rfl) fun ⟨last, distinguished⟩ => by
    cases last <;> cases distinguished <;> constructor <;>
      simp [optionalMember, LawfulWire.integral]

instance : LawfulWire VerifiedTreeHead :=
  lawfulWire_of_describes (fun _ => rfl) (fun _ => rfl) fun head => by
    constructor <;> simp [LawfulWire.integral]

instance : LawfulWire LastSeen :=
  lawfulWire_of_describes (fun _ => rfl) (fun _ => rfl) fun ⟨last, distinguished⟩ => by
    cases last <;> cases distinguished <;> constructor <;>
      simp [optionalMember, LawfulWire.integral]

end KeyTransparency.Wire
