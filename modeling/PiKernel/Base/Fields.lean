import PiKernel.Base.Bytes

/-!
# Structures in byte arrays

A C structure that is written through a pointer into a byte array is a list of
fields at pairwise disjoint offsets.  Each field reads back, and so does every
field of another structure that lies elsewhere in the array.
-/

namespace PiKernel.Bytes

variable {size : Nat}

/-- A field of a structure: where it lies and what is assigned to it. -/
structure Field where
  off : Nat
  width : Nat
  value : Nat

/-- The two fields share no byte. -/
def Field.Apart (f g : Field) : Prop :=
  f.off + f.width ≤ g.off ∨ g.off + g.width ≤ f.off

/-- Assign all fields, in order. -/
def writeFields (bytes : Fin size → UInt8) (fields : List Field) : Fin size → UInt8 :=
  fields.foldl (fun bytes f => writeLE bytes f.off f.width f.value) bytes

theorem readLE_writeFields_other {bytes : Fin size → UInt8} {fields : List Field}
    {off width : Nat}
    (apart : ∀ f ∈ fields, off + width ≤ f.off ∨ f.off + f.width ≤ off) :
    readLE (writeFields bytes fields) off width = readLE bytes off width := by
  induction fields generalizing bytes with
  | nil => rfl
  | cons f fields ih =>
      have later :
          readLE (writeFields (writeLE bytes f.off f.width f.value) fields) off width =
            readLE (writeLE bytes f.off f.width f.value) off width :=
        ih fun g member => apart g (List.mem_cons_of_mem f member)
      exact later.trans (readLE_writeLE_disjoint (apart f List.mem_cons_self))

theorem readLE_writeFields_mem {bytes : Fin size → UInt8} {fields : List Field}
    {f : Field} (apart : fields.Pairwise Field.Apart) (member : f ∈ fields)
    (fits : f.off + f.width ≤ size) :
    readLE (writeFields bytes fields) f.off f.width = f.value % 256 ^ f.width := by
  induction fields generalizing bytes with
  | nil => cases member
  | cons g fields ih =>
      rw [List.pairwise_cons] at apart
      rcases List.mem_cons.mp member with rfl | member
      · have kept :
            readLE (writeFields (writeLE bytes f.off f.width f.value) fields) f.off
                f.width =
              readLE (writeLE bytes f.off f.width f.value) f.off f.width :=
          readLE_writeFields_other fun h member => apart.1 h member
        exact kept.trans (readLE_writeLE_same fits)
      · exact ih apart.2 member

end PiKernel.Bytes
