import ImmutableLedger.Lib.Wire
import ImmutableLedger.Sql.Catalog

/-!
# A Go library to evaluate with

A `GoLib` that computes. On strings of ASCII characters, `ſ` (U+017F) and `İ` (U+0130) its `toLower` and `equalFold` are
those of Go. Definitions are encoded by `Wire` in place of JSON, and floats are not rounded.
-/

namespace ImmutableLedger

/-- An ASCII letter in lower case. -/
def lowerByte (b : UInt8) : UInt8 := if 0x41 ≤ b ∧ b ≤ 0x5A then b + 0x20 else b

/-- `strings.ToLower`: `ſ` is a lower-case letter, and `İ` has the lower case `i`. -/
def sampleLower : Bytes → Bytes
  | 0xC4 :: 0xB0 :: s => 0x69 :: sampleLower s
  | b :: s => lowerByte b :: sampleLower s
  | [] => []

/-- A representative of what a string folds to: `ſ` folds to `s`, and `İ` to itself. -/
def sampleFold : Bytes → Bytes
  | 0xC5 :: 0xBF :: s => 0x73 :: sampleFold s
  | b :: s => lowerByte b :: sampleFold s
  | [] => []

namespace QType

def code : QType → ℕ × UInt64
  | int8 => (0, 0) | int16 => (1, 0) | int24 => (2, 0) | int32 => (3, 0) | int64 => (4, 0)
  | uint8 => (5, 0) | uint16 => (6, 0) | uint24 => (7, 0) | uint32 => (8, 0) | uint64 => (9, 0)
  | float32 => (10, 0) | float64 => (11, 0)
  | char => (12, 0) | varchar => (13, 0) | text => (14, 0)
  | binary => (15, 0) | varbinary => (16, 0) | blob => (17, 0)
  | datetime => (18, 0) | timestamp => (19, 0)
  | other code => (20, code)

def ofCode : ℕ × UInt64 → QType
  | (0, _) => int8 | (1, _) => int16 | (2, _) => int24 | (3, _) => int32 | (4, _) => int64
  | (5, _) => uint8 | (6, _) => uint16 | (7, _) => uint24 | (8, _) => uint32 | (9, _) => uint64
  | (10, _) => float32 | (11, _) => float64
  | (12, _) => char | (13, _) => varchar | (14, _) => text
  | (15, _) => binary | (16, _) => varbinary | (17, _) => blob
  | (18, _) => datetime | (19, _) => timestamp
  | (_, code) => other code

theorem ofCode_code (q : QType) : ofCode q.code = q := by cases q <;> rfl

end QType

/-- Byte strings on the wire. -/
def wireBytes : Wire Bytes := Wire.byte.many

def wireColumn : Wire ColDef :=
  (wireBytes.both ((Wire.nat.both Wire.word).both (Wire.int.both (Wire.int.both (Wire.bool.both Wire.bool))))).via
    (fun p => ⟨p.1, QType.ofCode p.2.1, p.2.2.1, p.2.2.2.1, p.2.2.2.2.1, p.2.2.2.2.2⟩)
    (fun c => (c.name, c.qtype.code, c.length, c.precision, c.nullable, c.autoInc))
    fun c => by rw [QType.ofCode_code]

def wireIndex : Wire IndexDef :=
  (Wire.word.both (wireBytes.both (Wire.bool.both Wire.nat.many))).via
    (fun p => ⟨p.1, p.2.1, p.2.2.1, p.2.2.2⟩) (fun x => (x.id, x.name, x.unique, x.colOrds)) fun _ => rfl

/-- A definition without its cached counter. -/
def wireTable : Wire { d : TableDef // d.autoIncNext = 0 } :=
  (Wire.word.both (wireBytes.both (wireColumn.many.both (Wire.nat.many.both (wireBytes.both wireIndex.many))))).via
    (fun p => ⟨⟨p.1, p.2.1, p.2.2.1, p.2.2.2.1, p.2.2.2.2.1, p.2.2.2.2.2, 0⟩, rfl⟩)
    (fun d => (d.1.id, d.1.name, d.1.columns, d.1.pkOrds, d.1.comment, d.1.indexes))
    fun d => Subtype.ext (by
      obtain ⟨⟨id, name, columns, pkOrds, comment, indexes, next⟩, h⟩ := d
      obtain rfl : next = 0 := h
      rfl)

def wireMeta : Wire CatalogMeta :=
  (Wire.word.both (Wire.word.both wireBytes.many)).via (fun p => ⟨p.1, p.2.1, p.2.2⟩)
    (fun m => (m.nextTableID, m.nextIndexID, m.tables)) fun _ => rfl

/-- A result of the wire as one of Go. -/
def orError {α : Type} : Option α → Except String α
  | some a => .ok a
  | none => .error "unexpected end of input"

def sampleLib : GoLib where
  toLower := sampleLower
  equalFold a b := sampleFold a = sampleFold b
  round32 := fun x => x
  marshalMeta := wireMeta.put
  unmarshalMeta bs := orError (wireMeta.decode bs)
  marshalTable d := wireTable.put ⟨{ d with autoIncNext := 0 }, rfl⟩
  unmarshalTable bs := orError ((wireTable.decode bs).map Subtype.val)

theorem sampleLib_ok : sampleLib.Ok where
  unmarshal_meta m := by
    show orError (wireMeta.decode (wireMeta.put m)) = _
    rw [Wire.decode_put]
    rfl
  unmarshal_table d := by
    show orError ((wireTable.decode (wireTable.put _)).map Subtype.val) = _
    rw [Wire.decode_put]
    rfl
  round32_round32 _ := rfl

end ImmutableLedger
