import Mathlib.Tactic

/-!
# Records in memory

How a compiler lays out the fields of a record under the LP64 data model: each field at the next multiple of its
alignment, the whole padded to a multiple of the largest alignment, so that an array of records is aligned too.
-/

namespace GemOS.Foundation

/-- The next multiple of an alignment. -/
def alignUp (alignment offset : ℕ) : ℕ := (offset + alignment - 1) / alignment * alignment

/-- A field: an array of elements of one size and alignment, of length 1 for a scalar. -/
structure Field where
  size : ℕ
  alignment : ℕ
  count : ℕ
  deriving DecidableEq, Repr

namespace Field

/-- A field of one of the LP64 integer and pointer types, which are aligned to their size. -/
def scalar (size : ℕ) : Field := ⟨size, size, 1⟩

def array (elem : Field) (count : ℕ) : Field := ⟨elem.size, elem.alignment, count⟩

end Field

/-- The first byte behind fields that are laid out from `offset` on. -/
def fieldsEnd (offset : ℕ) : List Field → ℕ
  | [] => offset
  | field :: fields => fieldsEnd (alignUp field.alignment offset + field.size * field.count) fields

/-- The offsets of fields that are laid out from `offset` on. -/
def fieldOffsets (offset : ℕ) : List Field → List ℕ
  | [] => []
  | field :: fields =>
    alignUp field.alignment offset :: fieldOffsets (alignUp field.alignment offset + field.size * field.count) fields

/-- The alignment of a record. -/
def recordAlignment (fields : List Field) : ℕ := fields.foldr (fun field a ↦ max field.alignment a) 1

/-- `sizeof` of a record. -/
def recordSize (fields : List Field) : ℕ := alignUp (recordAlignment fields) (fieldsEnd 0 fields)

/-- A record as a field of another. -/
def Field.ofRecord (fields : List Field) : Field := ⟨recordSize fields, recordAlignment fields, 1⟩

end GemOS.Foundation
