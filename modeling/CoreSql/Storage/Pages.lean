import CoreSql.Storage.Records

/-!
# A chunk as a page

`encode_page`: what a chunk is in the page file. The cells are written by
what they are in memory, without the columns of the table, and the page ends
with a checksum as every stored format does.
-/

namespace CoreSql

/-- `field`: a length and the bytes. -/
def emitField (bytes : Bytes) : Bytes := u64 bytes.length ++ bytes

/-- `emit_value`, and `write_value`. -/
def emitValue : Value → Bytes
  | .null _ => u64 1
  | .integer i => u64 0 ++ u64 (toWord i.toInt)
  | .real bits => u64 0 ++ u64 bits.toNat
  | .text s => u64 0 ++ emitField s
  | .compact8 _ payload => u64 0 ++ (u64 8 ++ u64 (toWord payload.toInt))
  | .compact16 _ payload => u64 0 ++ emitField payload.val
  | .blob _ bytes => u64 0 ++ emitField bytes

/-- The rows of a chunk, each after its row id. -/
def emitRows (rowids : List Nat) (rows : List Row) : Bytes :=
  (rowids.zip rows).flatMap fun e => u64 e.1 ++ e.2.flatMap emitValue

def encodePage (c : Chunk) : Bytes :=
  sealed (u64 c.rows.length ++ u64 c.slots.length ++ c.slots.flatMap u64 ++
    emitRows c.rowids c.rows)

theorem encodePage_pos (c : Chunk) : 0 < (encodePage c).length := by
  rw [encodePage, sealed, List.length_append, length_u64]
  omega

end CoreSql
