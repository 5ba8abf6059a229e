import Softmaple.Graph.SpanBlocks

/-!
The numeric column of `graph/internals/span-column.ts`: an appendable last block,
sealed blocks before it, and a packed buffer for the blocks a column was made
from. An index and a packed offset have 32 bits.
-/

namespace Softmaple.SpanColumn

open List

open Binary64 ByteBuffer

def uint32Limit : Nat := 2 ^ 32

structure Sealed where
  offsets : List UInt32
  data : List UInt8

structure Column where
  blocks : List Block
  pending : List Float
  count : Nat
  cursor : SpanCursor
  sealedBlocks : Option Sealed

/-- `new SpanColumn()`. -/
def Column.empty : Column := ⟨[], [], 0, ⟨0, 0, number 0, number 0⟩, none⟩

/-- What `from` takes: a typed array, or any other list of numbers. -/
inductive Source where
  | typed (values : NumericArray)
  | other (values : List Float)

def Source.numbers : Source → List Float
  | .typed values => values.numbers
  | .other values => values

def NumericArray.subarray (values : NumericArray) (start : Nat) : NumericArray :=
  match values with
  | .uint8 items => .uint8 ((items.drop start).take blockSize)
  | .uint32 items => .uint32 ((items.drop start).take blockSize)
  | .int32 items => .int32 ((items.drop start).take blockSize)
  | .float64 items => .float64 ((items.drop start).take blockSize)

def chunk (values : List Float) (block : Nat) : List Float :=
  (values.drop (block * blockSize)).take blockSize

section
variable (littleEndian : Bool)

def DenseBlock.byteLength : DenseBlock → Nat
  | .uint32 items => items.length * 4
  | .float64 items => items.length * 8

def Steps.byteLength : Steps → Nat
  | .int8 items => items.length
  | .float64 items => items.length * 8

def Block.size : Block → Nat
  | .dense values => 1 + values.byteLength
  | .spans ends values steps => 3 + ends.length * 2 + values.byteLength + steps.byteLength

/-- Where each block starts, and where the last one ends. -/
def packedOffsets : Nat → List Block → List UInt32
  | size, [] => [UInt32.ofNat size]
  | size, block :: blocks => UInt32.ofNat size :: packedOffsets (size + block.size) blocks

def writeBlocks : List UInt8 → List Block → List UInt32 → List UInt8
  | data, block :: blocks, offset :: offsets =>
    writeBlocks (setBytes data offset.toNat (block.packed littleEndian)) blocks offsets
  | data, _, _ => data

def Column.packBlocks (column : Column) : Column :=
  let offsets := packedOffsets 0 column.blocks
  let data := List.replicate (column.blocks.map Block.size).sum 0
  { column with
    sealedBlocks := some ⟨offsets, writeBlocks littleEndian data column.blocks offsets⟩
    blocks := [] }

def copyInto (values : List Float) (start count : Nat) (pending : List Float) : List Float :=
  (values.drop start).take count ++ pending.drop count

/-- One turn of the loop of `from`: a whole block of a typed array is sealed where
it is, any other is copied first. -/
def takeBlock (start count : Nat) (blocks : List Block) (pending : List Float) :
    Source → List Block × List Float
  | .typed items =>
    if count = blockSize then (blocks ++ [«seal» (items.subarray start)], pending)
    else (blocks, copyInto items.numbers start count pending)
  | .other items =>
    let pending := copyInto items start count pending
    (if count = blockSize then blocks ++ [«seal» (.float64 pending)] else blocks, pending)

def fillFrom (values : Source) (start : Nat) (blocks : List Block) (pending : List Float) :
    List Block × List Float :=
  if start < values.numbers.length then
    let taken := takeBlock start (min blockSize (values.numbers.length - start)) blocks pending
      values
    fillFrom values (start + blockSize) taken.1 taken.2
  else (blocks, pending)
termination_by values.numbers.length - start
decreasing_by unfold blockSize; omega

/-- What the loop of `from` leaves: the sealed blocks and the pending one. -/
def filled (values : Source) : List Block × List Float :=
  fillFrom values 0 []
    (if 0 < values.numbers.length then List.replicate blockSize (number 0) else [])

/-- `SpanColumn.from`. -/
def Column.ofSource (values : Source) : Column :=
  Column.packBlocks littleEndian { Column.empty with
      blocks := (filled values).1
      pending := (filled values).2
      count := values.numbers.length }

def growPending (pending : List Float) (offset : Nat) : List Float :=
  if pending.length ≤ offset then
    pending ++ List.replicate
      (min blockSize (max 16 (pending.length * 2)) - pending.length) (number 0)
  else pending

def Column.append (column : Column) (value : Float) : Column :=
  let offset := column.count % blockSize
  let pending := (growPending column.pending offset).set offset value
  { column with
    pending := pending
    count := column.count + 1
    blocks := if offset = blockSize - 1 then column.blocks ++ [«seal» (.float64 pending)]
      else column.blocks }

def Column.sealedCount (column : Column) : Nat :=
  match column.sealedBlocks with
  | none => 0
  | some packed => packed.offsets.length - 1

def Column.readAt (column : Column) (block offset origin : Nat) : Option (Float × SpanCursor) :=
  if block < column.sealedCount then
    column.sealedBlocks.bind fun packed => packed.offsets[block]?.bind fun start =>
      readPackedBlock littleEndian packed.data start.toNat offset column.cursor origin
  else if block = column.sealedCount + column.blocks.length then
    column.pending[offset]?.map (·, column.cursor)
  else
    column.blocks[block - column.sealedCount]?.bind fun block =>
      readBlock block offset column.cursor origin

/-- `at`: the value and the column with its cursor moved; none where the source throws. -/
def Column.at (column : Column) (index : Nat) : Option (Float × Column) :=
  if column.cursor.start ≤ index ∧ index < column.cursor.finish then
    some (column.cursor.read index, column)
  else
    let offset := index % blockSize
    -- `index >>> BLOCK_SHIFT` keeps the low 32 bits of the index
    (column.readAt littleEndian (index % uint32Limit / blockSize) offset (index - offset)).map
      fun read => (read.1, { column with cursor := read.2 })

def Column.reopen (column : Column) (block offset : Nat) : Nat → Option Column
  | 0 => some column
  | remaining + 1 =>
    (column.at littleEndian (block * blockSize + offset)).bind fun read =>
      Column.reopen { read.2 with pending := read.2.pending.set offset read.1 } block
        (offset + 1) remaining

def Column.dropBlocks (column : Column) (block : Nat) : Column :=
  if block < column.sealedCount then
    { column with
      sealedBlocks := column.sealedBlocks.map fun packed =>
        ⟨packed.offsets.take (block + 1),
          packed.data.take ((packed.offsets[block]?.map UInt32.toNat).getD 0)⟩
      blocks := [] }
  else { column with blocks := column.blocks.take (block - column.sealedCount) }

def invalidTruncation : String := "Invalid column truncation"

def unreadable : String := "Cannot read properties of undefined"

def Column.truncate (column : Column) (count : Float) : Except String Column :=
  if count == number column.count then .ok column
  else if !Binary64.isSafeInteger count || decide (count < number 0) ||
      decide (number column.count < count) then .error invalidTruncation
  else
    let count := (Binary64.truncate count).toNat
    let block := count % uint32Limit / blockSize
    let reopened :=
      if block < column.sealedCount + column.blocks.length then
        (column.reopen littleEndian block 0 (count % blockSize)).map (·.dropBlocks block)
      else some column
    match reopened with
    | none => .error unreadable
    | some column =>
      .ok { column with count := count, cursor := { column.cursor with finish := 0 } }

inductive Operation where
  | append (value : Float)
  | read (index : Nat)
  | truncate (count : Float)

/-- A call that throws leaves the column as it was. -/
def Column.step (column : Column) : Operation → Column
  | .append value => column.append value
  | .read index => ((column.at littleEndian index).map Prod.snd).getD column
  | .truncate count => (column.truncate littleEndian count).toOption.getD column

def Column.run (column : Column) (operations : List Operation) : Column :=
  operations.foldl (Column.step littleEndian) column

end

/-- The counts `truncate` takes. -/
def isCount (length : Nat) (count : Float) : Bool :=
  Binary64.isSafeInteger count && decide (0 ≤ Binary64.truncate count) &&
    decide (Binary64.truncate count ≤ length)

def nextContents (values : List Float) : Operation → List Float
  | .append value => values ++ [value]
  | .read _ => values
  | .truncate count =>
    if isCount values.length count then values.take (Binary64.truncate count).toNat else values

def contents (values : List Float) (operations : List Operation) : List Float :=
  operations.foldl nextContents values

variable {values : List Float}

theorem getElem?_chunk {block offset : Nat} (h : offset < blockSize) :
    (chunk values block)[offset]? = values[block * blockSize + offset]? := by
  rw [chunk, getElem?_take_of_lt h, getElem?_drop]

theorem length_chunk {block : Nat}
    (h : (block + 1) * blockSize ≤ values.length) : (chunk values block).length = blockSize := by
  rw [Nat.succ_mul] at h
  rw [chunk, length_take, length_drop]
  omega

theorem chunk_ext {values' : List Float} {block : Nat} (h : ∀ offset < blockSize,
      values[block * blockSize + offset]? = values'[block * blockSize + offset]?) :
    chunk values block = chunk values' block := by
  refine ext_getElem? fun offset => ?_
  by_cases hoffset : offset < blockSize
  · rw [getElem?_chunk hoffset, getElem?_chunk hoffset, h offset hoffset]
  · rw [chunk, chunk, getElem?_take, getElem?_take, if_neg hoffset, if_neg hoffset]

theorem chunk_append {rest : List Float} {block : Nat} (h : (block + 1) * blockSize ≤ values.length) :
    chunk (values ++ rest) block = chunk values block := by
  rw [Nat.succ_mul] at h
  exact chunk_ext fun offset hoffset => getElem?_append_left (by omega)

theorem chunk_take {block count : Nat} (h : (block + 1) * blockSize ≤ count) :
    chunk (values.take count) block = chunk values block := by
  rw [Nat.succ_mul] at h
  exact chunk_ext fun offset hoffset => getElem?_take_of_lt (by omega)

section
variable {littleEndian : Bool}

theorem DenseBlock.byteLength_eq (values : DenseBlock) :
    (values.bytes littleEndian).length = values.byteLength := by
  cases values with
  | uint32 items => exact length_flatMap_width length_uint32Bytes items
  | float64 items => exact length_flatMap_width length_float64Bytes items

theorem Steps.byteLength_eq (steps : Steps) :
    (steps.bytes littleEndian).length = steps.byteLength := by
  cases steps with
  | int8 items =>
    have hwidth : ∀ item, (int8Bytes item).length = 1 := fun _ => rfl
    exact (length_flatMap_width hwidth items).trans (Nat.mul_one _)
  | float64 items => exact length_flatMap_width length_float64Bytes items

theorem Block.length_packed (block : Block) :
    (block.packed littleEndian).length = block.size := by
  cases block with
  | dense values =>
    rw [Block.packed, length_cons, DenseBlock.byteLength_eq, Block.size, Nat.add_comm]
  | spans ends values steps =>
    rw [Block.packed, length_cons, length_append, length_append,
      length_append, length_encode, length_flatMap_width length_uint16Bytes,
      DenseBlock.byteLength_eq, Steps.byteLength_eq, Block.size]
    omega

def placeOf (blocks : List Block) (block : Nat) : Nat := ((blocks.take block).map Block.size).sum

theorem length_flatMap_packed (blocks : List Block) :
    (blocks.flatMap (Block.packed littleEndian)).length = (blocks.map Block.size).sum := by
  induction blocks with
  | nil => rfl
  | cons block blocks ih =>
    rw [flatMap_cons, length_append, ih, Block.length_packed, map_cons,
      sum_cons]

variable {blocks : List Block}

theorem packedOffsets_getElem? (size : Nat) {block : Nat} (h : block ≤ blocks.length) :
    (packedOffsets size blocks)[block]? = some (UInt32.ofNat (size + placeOf blocks block)) := by
  induction blocks generalizing size block with
  | nil =>
    obtain rfl : block = 0 := Nat.le_zero.mp h
    rfl
  | cons first rest ih =>
    cases block with
    | zero => rfl
    | succ block =>
      have hrest := ih (size + first.size) (show block ≤ rest.length by simpa using h)
      rw [packedOffsets, getElem?_cons_succ, hrest]
      simp only [placeOf, take_succ_cons, map_cons, sum_cons, Nat.add_assoc]

theorem length_packedOffsets (size : Nat) (blocks : List Block) :
    (packedOffsets size blocks).length = blocks.length + 1 := by
  induction blocks generalizing size with
  | nil => rfl
  | cons block blocks ih => rw [packedOffsets, length_cons, ih, length_cons]

theorem take_packedOffsets (size : Nat) {block : Nat} (h : block ≤ blocks.length) :
    (packedOffsets size blocks).take (block + 1) = packedOffsets size (blocks.take block) := by
  induction blocks generalizing size block with
  | nil =>
    obtain rfl : block = 0 := Nat.le_zero.mp h
    rfl
  | cons first rest ih =>
    cases block with
    | zero => cases rest <;> rfl
    | succ block =>
      rw [packedOffsets, take_succ_cons, ih _ (by simpa using h), take_succ_cons,
        packedOffsets]

theorem holds_packed {block : Nat} (h : block < blocks.length) :
    Holds (blocks.flatMap (Block.packed littleEndian)) (placeOf blocks block)
      (blocks[block].packed littleEndian) := by
  refine ⟨(blocks.take block).flatMap (Block.packed littleEndian),
    (blocks.drop (block + 1)).flatMap (Block.packed littleEndian), ?_, length_flatMap_packed _⟩
  have hsplit : blocks = blocks.take block ++ blocks[block] :: blocks.drop (block + 1) := by
    rw [getElem_cons_drop, take_append_drop]
  conv_lhs => rw [hsplit]
  rw [flatMap_append, flatMap_cons, append_assoc]

theorem take_packed (block : Nat) :
    (blocks.flatMap (Block.packed littleEndian)).take (placeOf blocks block) =
      (blocks.take block).flatMap (Block.packed littleEndian) := by
  conv_lhs => rw [← take_append_drop block blocks, flatMap_append]
  have hlength := @length_flatMap_packed littleEndian (blocks.take block)
  rw [placeOf, take_append_drop, ← hlength, take_left]

theorem writeBlocks_eq {written : List UInt8} {rest : List UInt8}
    (hlimit : ∀ block < blocks.length, written.length + placeOf blocks block < uint32Limit)
    (hrest : rest.length = (blocks.map Block.size).sum) :
    writeBlocks littleEndian (written ++ rest) blocks (packedOffsets written.length blocks) =
      written ++ blocks.flatMap (Block.packed littleEndian) := by
  induction blocks generalizing written rest with
  | nil =>
    obtain rfl : rest = [] := length_eq_zero_iff.mp hrest
    rfl
  | cons block blocks ih =>
    have hfirst : (UInt32.ofNat written.length).toNat = written.length := by
      have := hlimit 0 (Nat.succ_pos _)
      rw [UInt32.toNat_ofNat', Nat.mod_eq_of_lt]
      unfold uint32Limit at this
      omega
    rw [map_cons, sum_cons] at hrest
    have hsize := @Block.length_packed littleEndian block
    have hset : setBytes (written ++ rest) written.length (block.packed littleEndian) =
        (written ++ block.packed littleEndian) ++ rest.drop block.size := by
      rw [setBytes, take_left, hsize, drop_length_add_append]
    have hlength : (written ++ block.packed littleEndian).length =
        written.length + block.size := by rw [length_append, hsize]
    rw [packedOffsets, writeBlocks, hfirst, hset, ← hlength, ih, flatMap_cons,
      append_assoc]
    · intro place hplace
      have := hlimit (place + 1) (Nat.succ_lt_succ hplace)
      rw [hlength]
      simpa only [placeOf, take_succ_cons, map_cons, sum_cons,
        Nat.add_assoc] using this
    · rw [length_drop, hrest, Nat.add_sub_cancel_left]

end

def PackedAs (littleEndian : Bool) : Option Sealed → List Block → Prop
  | none, packs => packs = []
  | some packed, packs => packed.offsets = packedOffsets 0 packs ∧
      packed.data = packs.flatMap (Block.packed littleEndian)

def WithinOffsets (packs : List Block) : Prop :=
  ∀ block < packs.length, placeOf packs block < uint32Limit

def SpanCursor.ReadsWithin (cursor : SpanCursor) (values : List Float) : Prop :=
  ∀ index < uint32Limit, cursor.start ≤ index → index < cursor.finish →
    values[index]? = some (cursor.read index)

structure Column.Stores (littleEndian : Bool) (column : Column) (packs : List Block)
    (values : List Float) : Prop where
  packed : PackedAs littleEndian column.sealedBlocks packs
  places : WithinOffsets packs
  whole : (packs.length + column.blocks.length) * blockSize ≤ values.length
  blocks : ∀ place block, (packs ++ column.blocks)[place]? = some block →
    Represents block (chunk values place)
  cursor : column.cursor.ReadsWithin values

structure Column.StandsFor (littleEndian : Bool) (column : Column) (packs : List Block)
    (values : List Float) : Prop extends Column.Stores littleEndian column packs values where
  count : column.count = values.length
  blockCount : packs.length + column.blocks.length = values.length / blockSize
  pendingLow : values.length % blockSize ≤ column.pending.length
  pendingHigh : column.pending.length ≤ blockSize
  pendingFull : blockSize ≤ values.length → column.pending.length = blockSize
  pending : ∀ offset < values.length % blockSize,
    column.pending[offset]? = values[values.length / blockSize * blockSize + offset]?

section
variable {littleEndian : Bool} {column : Column} {packs : List Block} {values : List Float}

theorem PackedAs.sealedCount (h : PackedAs littleEndian column.sealedBlocks packs) :
    column.sealedCount = packs.length := by
  unfold Column.sealedCount
  cases hsealed : column.sealedBlocks with
  | none =>
    rw [hsealed] at h
    obtain rfl : packs = [] := h
    rfl
  | some packed =>
    rw [hsealed] at h
    change packed.offsets.length - 1 = _
    rw [h.1, length_packedOffsets, Nat.add_sub_cancel]

variable {offset : Nat}

theorem Column.Stores.readAt (h : column.Stores littleEndian packs values) {block : Nat}
    (hblock : block < packs.length + column.blocks.length) (hoffset : offset < blockSize)
    (origin : Nat) :
    ∃ value cursor, column.readAt littleEndian block offset origin = some (value, cursor) ∧
      values[block * blockSize + offset]? = some value ∧
        (cursor = column.cursor ∨ cursor.Covers origin (chunk values block)) := by
  have hwhole : (block + 1) * blockSize ≤ values.length :=
    le_trans (Nat.mul_le_mul_right _ hblock) h.whole
  have hlength := length_chunk hwhole
  have hcount := h.packed.sealedCount
  rw [← getElem?_chunk hoffset]
  unfold Column.readAt
  rw [hcount]
  by_cases hpacked : block < packs.length
  · rw [if_pos hpacked]
    have hrepresents := h.blocks block packs[block]
      (by rw [getElem?_append_left hpacked, getElem?_eq_getElem hpacked])
    cases hsealed : column.sealedBlocks with
    | none =>
      have hnil := h.packed
      rw [hsealed] at hnil
      obtain rfl : packs = [] := hnil
      cases hpacked
    | some packed =>
      have hbuffer := h.packed
      rw [hsealed] at hbuffer
      obtain ⟨hoffsets, hdata⟩ := hbuffer
      have hplace : (UInt32.ofNat (0 + placeOf packs block)).toNat = placeOf packs block := by
        have := h.places block hpacked
        unfold uint32Limit at this
        rw [Nat.zero_add, UInt32.toNat_ofNat', Nat.mod_eq_of_lt this]
      have hread := readPackedBlock_reads hrepresents hlength.le
        (@holds_packed littleEndian _ _ hpacked) offset column.cursor origin (hlength ▸ hoffset)
      rw [Option.bind_some, hoffsets, packedOffsets_getElem? 0 hpacked.le, Option.bind_some,
        hplace, hdata]
      exact hread
  · have hkept : block - packs.length < column.blocks.length := by omega
    have hrepresents := h.blocks block column.blocks[block - packs.length]
      (by rw [getElem?_append_right (by omega), getElem?_eq_getElem hkept])
    rw [if_neg hpacked, if_neg (by omega), getElem?_eq_getElem hkept, Option.bind_some]
    exact readBlock_reads hrepresents offset column.cursor origin (hlength ▸ hoffset)

theorem SpanCursor.Covers.reads_values {cursor : SpanCursor} {block : Nat}
    (h : cursor.Covers (block * blockSize) (chunk values block)) {index : Nat}
    (hlow : cursor.start ≤ index) (hhigh : index < cursor.finish) :
    values[index]? = some (cursor.read index) := by
  have hstart := h.start
  have hfinish := h.finish
  have hlength : (chunk values block).length ≤ blockSize := length_take_le ..
  have hread := h.reads index hlow hhigh
  rw [getElem?_chunk (by omega)] at hread
  rw [← hread]
  congr 1
  omega

theorem Column.Stores.withCursor (h : column.Stores littleEndian packs values)
    {cursor : SpanCursor} (hcursor : cursor.ReadsWithin values) :
    ({ column with cursor := cursor } : Column).Stores littleEndian packs values :=
  ⟨h.packed, h.places, h.whole, h.blocks, hcursor⟩

theorem shift_index {index : Nat} (h : index < uint32Limit) :
    index % uint32Limit / blockSize * blockSize + index % blockSize = index := by
  rw [Nat.mod_eq_of_lt h, Nat.mul_comm]
  exact Nat.div_add_mod index blockSize

theorem Column.Stores.at (h : column.Stores littleEndian packs values) {index : Nat}
    (hindex : index < (packs.length + column.blocks.length) * blockSize)
    (hlimit : index < uint32Limit) :
    ∃ value cursor, column.at littleEndian index =
        some (value, { column with cursor := cursor }) ∧ values[index]? = some value ∧
      ({ column with cursor := cursor } : Column).Stores littleEndian packs values := by
  unfold Column.at
  by_cases hhit : column.cursor.start ≤ index ∧ index < column.cursor.finish
  · rw [if_pos hhit]
    exact ⟨_, column.cursor, rfl, h.cursor index hlimit hhit.1 hhit.2, h⟩
  · rw [if_neg hhit]
    have hplace := shift_index hlimit
    have hblock : index % uint32Limit / blockSize < packs.length + column.blocks.length := by
      rw [Nat.mod_eq_of_lt hlimit]
      exact (Nat.div_lt_iff_lt_mul (by decide)).mpr hindex
    obtain ⟨value, cursor, hread, hvalue, hcursor⟩ := h.readAt hblock
      (Nat.mod_lt index (show 0 < blockSize by decide)) (index - index % blockSize)
    rw [hplace] at hvalue
    refine ⟨value, cursor, ?_, hvalue, h.withCursor ?_⟩
    · dsimp only
      rw [hread]
      rfl
    · obtain rfl | hcovers := hcursor
      · exact h.cursor
      · have horigin : index - index % blockSize =
            index % uint32Limit / blockSize * blockSize := by omega
        rw [horigin] at hcovers
        exact fun _ _ hlow hhigh => hcovers.reads_values hlow hhigh

section

variable (h : column.StandsFor littleEndian packs values)
include h

theorem Column.StandsFor.withCursor
    {cursor : SpanCursor} (hcursor : ({ column with cursor := cursor } : Column).Stores
      littleEndian packs values) :
    ({ column with cursor := cursor } : Column).StandsFor littleEndian packs values :=
  ⟨hcursor, h.count, h.blockCount, h.pendingLow, h.pendingHigh, h.pendingFull, h.pending⟩

theorem Column.StandsFor.at {index : Nat}
    (hindex : index < values.length) (hlimit : index < uint32Limit) :
    ∃ value column', column.at littleEndian index = some (value, column') ∧
      values[index]? = some value ∧ column'.StandsFor littleEndian packs values := by
  by_cases hkept : index < (packs.length + column.blocks.length) * blockSize
  · obtain ⟨value, cursor, hread, hvalue, hstores⟩ := h.toStores.at hkept hlimit
    exact ⟨value, _, hread, hvalue, h.withCursor hstores⟩
  · unfold Column.at
    by_cases hhit : column.cursor.start ≤ index ∧ index < column.cursor.finish
    · rw [if_pos hhit]
      exact ⟨_, column, rfl, h.cursor index hlimit hhit.1 hhit.2, h⟩
    · have hblock : index / blockSize = values.length / blockSize := by
        have hlow : values.length / blockSize * blockSize ≤ index := by
          rw [← h.blockCount]
          exact not_lt.mp hkept
        refine le_antisymm (Nat.div_le_div_right hindex.le) ?_
        exact (Nat.le_div_iff_mul_le (by decide)).mpr hlow
      have hsplit := Nat.div_add_mod index blockSize
      have hsplit' := Nat.div_add_mod values.length blockSize
      have hoffset : index % blockSize < values.length % blockSize := by
        rw [hblock] at hsplit
        omega
      have hpending := h.pending _ hoffset
      have hplace : values.length / blockSize * blockSize + index % blockSize = index := by
        rw [← hblock, Nat.mul_comm]
        exact hsplit
      rw [hplace, getElem?_eq_getElem hindex] at hpending
      refine ⟨values[index], column, ?_, getElem?_eq_getElem hindex, h⟩
      rw [if_neg hhit]
      dsimp only
      rw [Column.readAt, h.packed.sealedCount, Nat.mod_eq_of_lt hlimit, hblock, ← h.blockCount,
        if_neg (by omega), if_pos rfl, hpending]
      rfl

variable {pending : List Float}

omit h in
theorem growPending_spec (hlow : offset ≤ pending.length)
    (hhigh : pending.length ≤ blockSize) (hoffset : offset < blockSize) :
    offset < (growPending pending offset).length ∧ (growPending pending offset).length ≤ blockSize ∧
      pending.length ≤ (growPending pending offset).length ∧
      ∀ place < pending.length, (growPending pending offset)[place]? = pending[place]? := by
  unfold growPending
  split
  · rw [length_append, length_replicate]
    unfold blockSize at *
    exact ⟨by omega, by omega, by omega, fun place hplace => getElem?_append_left hplace⟩
  · exact ⟨by omega, hhigh, le_rfl, fun _ _ => rfl⟩

omit h in
theorem getElem?_concat_pending {value : Float} (h : offset ≤ values.length % blockSize) :
    (values ++ [value])[values.length / blockSize * blockSize + offset]? =
      if offset = values.length % blockSize then some value
      else values[values.length / blockSize * blockSize + offset]? := by
  have hsplit := Nat.div_add_mod values.length blockSize
  rw [Nat.mul_comm] at hsplit
  split
  · rw [getElem?_append_right (by omega)]
    have hzero : values.length / blockSize * blockSize + offset - values.length = 0 := by omega
    rw [hzero]
    rfl
  · exact getElem?_append_left (by omega)

theorem Column.StandsFor.append_pending
    (value : Float) (hoffset : offset ≤ values.length % blockSize) :
    ((growPending column.pending (values.length % blockSize)).set
        (values.length % blockSize) value)[offset]? =
      (values ++ [value])[values.length / blockSize * blockSize + offset]? := by
  obtain ⟨hroom, -, -, hkept⟩ := growPending_spec h.pendingLow h.pendingHigh
    (Nat.mod_lt values.length (show 0 < blockSize by decide))
  have hlow := h.pendingLow
  rw [getElem?_concat_pending hoffset]
  split
  · rename_i hhere
    rw [hhere, getElem?_set_self hroom]
  · rename_i hbefore
    rw [getElem?_set_ne (Ne.symm hbefore), hkept offset (by omega),
      h.pending offset (by omega)]

omit h in
theorem Column.Stores.append (h : column.Stores littleEndian packs values) (value : Float) :
    column.Stores littleEndian packs (values ++ [value]) := by
  refine ⟨h.packed, h.places, ?_, fun place block hblock => ?_, fun index hlimit hlow hhigh => ?_⟩
  · rw [length_append]
    exact le_trans h.whole (Nat.le_add_right _ _)
  · obtain ⟨hplace, -⟩ := List.getElem?_eq_some_iff.mp hblock
    rw [length_append] at hplace
    rw [chunk_append (le_trans (Nat.mul_le_mul_right _ hplace) h.whole)]
    exact h.blocks place block hblock
  · have hvalue := h.cursor index hlimit hlow hhigh
    obtain ⟨hindex, -⟩ := List.getElem?_eq_some_iff.mp hvalue
    rwa [getElem?_append_left hindex]

theorem Column.StandsFor.append
    (value : Float) : (column.append value).StandsFor littleEndian packs (values ++ [value]) := by
  have hstores := h.toStores.append value
  have hpending : ∀ offset ≤ values.length % blockSize,
      ((growPending column.pending (values.length % blockSize)).set
        (values.length % blockSize) value)[offset]? =
        (values ++ [value])[values.length / blockSize * blockSize + offset]? :=
    fun _ => h.append_pending value
  have hmod := Nat.mod_lt values.length (show 0 < blockSize by decide)
  obtain ⟨hroom, hsize, hgrown, -⟩ := growPending_spec h.pendingLow h.pendingHigh hmod
  have hsplit := Nat.div_add_mod values.length blockSize
  have hcount := h.blockCount
  have hlength : (values ++ [value]).length = values.length + 1 := by simp
  have hdiv : (values.length + 1) / blockSize = if values.length % blockSize = blockSize - 1 then
      values.length / blockSize + 1 else values.length / blockSize := by
    unfold blockSize at *
    split <;> omega
  have hmod' : (values.length + 1) % blockSize = if values.length % blockSize = blockSize - 1 then 0
      else values.length % blockSize + 1 := by
    unfold blockSize at *
    split <;> omega
  generalize hpend : (growPending column.pending (values.length % blockSize)).set
    (values.length % blockSize) value = pending at hpending
  have hpendLength : pending.length =
      (growPending column.pending (values.length % blockSize)).length := by
    rw [← hpend, length_set]
  have hresult : column.append value = { column with
        pending := pending
        count := values.length + 1
        blocks := if values.length % blockSize = blockSize - 1 then
          column.blocks ++ [«seal» (.float64 pending)] else column.blocks } := by
    rw [Column.append, h.count, hpend]
  rw [hresult]
  by_cases hfull : values.length % blockSize = blockSize - 1
  · rw [if_pos hfull] at hdiv hmod' ⊢
    have hpendFull : pending.length = blockSize := by omega
    have hchunk : chunk (values ++ [value]) (values.length / blockSize) = pending := by
      refine ext_getElem? fun offset => ?_
      by_cases hoffset : offset < blockSize
      · rw [getElem?_chunk hoffset]
        exact (hpending offset (by omega)).symm
      · rw [chunk, getElem?_take, if_neg hoffset, getElem?_eq_none (by omega)]
    refine ⟨⟨hstores.packed, hstores.places, ?_, fun place block hblock => ?_, hstores.cursor⟩,
      hlength.symm, ?_, ?_, ?_, ?_, ?_⟩
    · rw [length_append, length_singleton, hlength]
      unfold blockSize at *
      omega
    · rw [← append_assoc] at hblock
      by_cases hold : place < (packs ++ column.blocks).length
      · rw [getElem?_append_left hold] at hblock
        exact hstores.blocks place block hblock
      · have hlast : place = values.length / blockSize := by
          obtain ⟨hplace, -⟩ := List.getElem?_eq_some_iff.mp hblock
          simp only [length_append, length_singleton] at hplace hold
          omega
        rw [getElem?_append_right (not_lt.mp hold)] at hblock
        obtain rfl := mem_singleton.mp (mem_of_getElem? hblock)
        rw [hlast, hchunk]
        exact @seal_represents (.float64 pending) hpendFull
    · rw [length_append, length_singleton, hlength, hdiv]
      omega
    · rw [hlength, hmod']
      exact Nat.zero_le _
    · exact hpendFull.le
    · exact fun _ => hpendFull
    · intro offset hoffset
      rw [hlength, hmod'] at hoffset
      cases hoffset
  · rw [if_neg hfull] at hdiv hmod' ⊢
    refine ⟨⟨hstores.packed, hstores.places, hstores.whole, hstores.blocks, hstores.cursor⟩,
      hlength.symm, ?_, ?_, ?_, ?_, ?_⟩
    · rw [hlength, hdiv]
      exact hcount
    · rw [hlength, hmod', hpendLength]
      exact hroom
    · exact hpendLength ▸ hsize
    · intro hlong
      have hblocks : blockSize ≤ values.length := by
        rw [hlength] at hlong
        unfold blockSize at *
        omega
      have hgrownFull := h.pendingFull hblocks
      change pending.length = blockSize
      omega
    · intro offset hoffset
      rw [hlength, hmod'] at hoffset
      rw [hlength, hdiv]
      exact hpending offset (by omega)

end

theorem Column.Stores.withPending (h : column.Stores littleEndian packs values)
    (pending : List Float) :
    ({ column with pending := pending } : Column).Stores littleEndian packs values :=
  ⟨h.packed, h.places, h.whole, h.blocks, h.cursor⟩

theorem Column.Stores.reopen (h : column.Stores littleEndian packs values) {block : Nat}
    (hblock : block < packs.length + column.blocks.length) (hlimit : values.length ≤ uint32Limit)
    {remaining : Nat} (hfits : offset + remaining ≤ blockSize)
    (hroom : column.pending.length = blockSize)
    (hdone : ∀ place < offset, column.pending[place]? = values[block * blockSize + place]?) :
    ∃ column', column.reopen littleEndian block offset remaining = some column' ∧
      column'.Stores littleEndian packs values ∧ column'.blocks = column.blocks ∧
      column'.sealedBlocks = column.sealedBlocks ∧ column'.pending.length = blockSize ∧
      ∀ place < offset + remaining,
        column'.pending[place]? = values[block * blockSize + place]? := by
  induction remaining generalizing column offset with
  | zero => exact ⟨column, rfl, h, rfl, rfl, hroom, hdone⟩
  | succ remaining ih =>
    have hwhole := le_trans (Nat.mul_le_mul_right blockSize hblock) h.whole
    have hkept := Nat.mul_le_mul_right blockSize (Nat.succ_le_of_lt hblock)
    rw [Nat.succ_mul] at hwhole hkept
    obtain ⟨value, cursor, hread, hvalue, hstores⟩ :=
      h.at (show block * blockSize + offset <
        (packs.length + column.blocks.length) * blockSize by omega) (by omega)
    have hset := hstores.withPending (column.pending.set offset value)
    obtain ⟨column', hreopen, hresult⟩ := ih hset hblock (show offset + 1 + remaining ≤ blockSize by omega)
      (by rw [← hroom]; exact length_set) fun place hplace => by
        change (column.pending.set offset value)[place]? = _
        by_cases hhere : place = offset
        · rw [hhere, getElem?_set_self (by omega), hvalue]
        · rw [getElem?_set_ne (Ne.symm hhere)]
          exact hdone place (by omega)
    refine ⟨column', ?_, ?_⟩
    · rw [Column.reopen, hread]
      exact hreopen
    · rwa [show offset + (remaining + 1) = offset + 1 + remaining by omega]

theorem Column.Stores.dropBlocks (h : column.Stores littleEndian packs values) {count : Nat}
    (hcount : count ≤ values.length)
    (hblock : count / blockSize < packs.length + column.blocks.length) :
    ∃ packs', packs'.length + (column.dropBlocks (count / blockSize)).blocks.length =
        count / blockSize ∧
      ({ column.dropBlocks (count / blockSize) with
        count := count
        cursor := { column.cursor with finish := 0 } } : Column).Stores littleEndian packs'
        (values.take count) := by
  have hdiv := Nat.div_mul_le_self count blockSize
  have hchunk {place : Nat} (hplace : place < count / blockSize) :
      chunk (values.take count) place = chunk values place :=
    chunk_take (le_trans (Nat.mul_le_mul_right _ hplace) hdiv)
  have hlength : (values.take count).length = count := by
    rw [length_take, Nat.min_eq_left hcount]
  have hsealed := h.packed.sealedCount
  unfold Column.dropBlocks
  rw [hsealed]
  by_cases hpacked : count / blockSize < packs.length
  · rw [if_pos hpacked]
    have hkept : (packs.take (count / blockSize)).length = count / blockSize := by
      rw [length_take, Nat.min_eq_left hpacked.le]
    refine ⟨packs.take (count / blockSize), ?_, ?_, ?_, ?_, ?_, ?_⟩
    · rw [hkept]
      rfl
    · have hbuffer := h.packed
      cases hbuf : column.sealedBlocks with
      | none =>
        rw [hbuf] at hbuffer
        obtain rfl : packs = [] := hbuffer
        cases hpacked
      | some packed =>
        rw [hbuf] at hbuffer
        obtain ⟨hoffsets, hdata⟩ := hbuffer
        have hplace : (UInt32.ofNat (0 + placeOf packs (count / blockSize))).toNat =
            placeOf packs (count / blockSize) := by
          have := h.places _ hpacked
          unfold uint32Limit at this
          rw [Nat.zero_add, UInt32.toNat_ofNat', Nat.mod_eq_of_lt this]
        refine ⟨?_, ?_⟩
        · exact (congrArg _ hoffsets).trans (take_packedOffsets 0 hpacked.le)
        · change packed.data.take ((packed.offsets[count / blockSize]?.map _).getD 0) = _
          rw [hoffsets, packedOffsets_getElem? 0 hpacked.le, Option.map_some, Option.getD_some,
            hplace, hdata, take_packed]
    · intro place hplace
      rw [hkept] at hplace
      have hsame : placeOf (packs.take (count / blockSize)) place = placeOf packs place := by
        rw [placeOf, take_take, Nat.min_eq_left hplace.le, placeOf]
      rw [hsame]
      exact h.places place (lt_trans hplace hpacked)
    · rw [hkept, hlength]
      exact hdiv
    · intro place block hget
      change (packs.take (count / blockSize) ++ [])[place]? = some block at hget
      rw [append_nil, getElem?_take] at hget
      split at hget
      · rename_i hplace
        rw [hchunk hplace]
        refine h.blocks place block ?_
        rwa [getElem?_append_left (lt_trans hplace hpacked)]
      · cases hget
    · exact fun index _ _ hhigh => absurd hhigh (Nat.not_lt_zero _)
  · rw [if_neg hpacked]
    have hkept : (column.blocks.take (count / blockSize - packs.length)).length =
        count / blockSize - packs.length := by
      rw [length_take]
      omega
    refine ⟨packs, ?_, h.packed, h.places, ?_, ?_, ?_⟩
    · change packs.length + (column.blocks.take _).length = _
      rw [hkept]
      omega
    · change (packs.length + (column.blocks.take _).length) * blockSize ≤ _
      rw [hkept, hlength, Nat.add_sub_cancel' (not_lt.mp hpacked)]
      exact hdiv
    · intro place block hget
      change (packs ++ column.blocks.take (count / blockSize - packs.length))[place]? =
        some block at hget
      have hplace : place < count / blockSize := by
        obtain ⟨hplace, -⟩ := List.getElem?_eq_some_iff.mp hget
        rw [length_append, hkept] at hplace
        omega
      rw [hchunk hplace]
      refine h.blocks place block ?_
      by_cases hfirst : place < packs.length
      · rwa [getElem?_append_left hfirst] at hget ⊢
      · rw [getElem?_append_right (not_lt.mp hfirst)] at hget ⊢
        rwa [getElem?_take_of_lt (by omega)] at hget
    · exact fun index _ _ hhigh => absurd hhigh (Nat.not_lt_zero _)

theorem compare_count {count : Float} (hsafe : Binary64.isSafeInteger count = true) {length : Nat}
    (hlength : length ≤ uint32Limit) :
    ((count == number length) = true ↔ Binary64.truncate count = length) ∧
      (count < number 0 ↔ Binary64.truncate count < 0) ∧
      (number length < count ↔ (length : Int) < Binary64.truncate count) := by
  simp only [Binary64.isSafeInteger, Bool.and_eq_true] at hsafe
  have hfinite := isFinite_of_isInteger hsafe.1
  have hunits := unitsOf_eq hsafe.1
  have hsmall : ((length : Int)).natAbs < 2 ^ 53 := by unfold uint32Limit at hlength; omega
  rw [beq_iff_units hfinite (isFinite_number hsmall), lt_iff_units hfinite
    (isFinite_number (by decide)), lt_iff_units (isFinite_number hsmall) hfinite,
    unitsOf_number hsmall, unitsOf_number (by decide), hunits]
  refine ⟨?_, Int.mul_lt_mul_right Binary64.one_pos, Int.mul_lt_mul_right Binary64.one_pos⟩
  exact mul_left_inj' Binary64.one_pos.ne'

theorem Column.StandsFor.truncateTo (h : column.StandsFor littleEndian packs values)
    (hlimit : values.length ≤ uint32Limit) {count : Nat} (hcount : count < values.length) :
    ∃ column' packs', (if count % uint32Limit / blockSize <
          column.sealedCount + column.blocks.length then
        (column.reopen littleEndian (count % uint32Limit / blockSize) 0 (count % blockSize)).map
          (·.dropBlocks (count % uint32Limit / blockSize))
      else some column) = some column' ∧
      ({ column' with
        count := count, cursor := { column'.cursor with finish := 0 } } : Column).StandsFor
        littleEndian packs' (values.take count) := by
  have hlength : (values.take count).length = count := by
    rw [length_take, Nat.min_eq_left hcount.le]
  have hindex : count % uint32Limit = count := Nat.mod_eq_of_lt (by omega)
  have hsplit := Nat.div_add_mod count blockSize
  have hmod := Nat.mod_lt count (show 0 < blockSize by decide)
  have htotal := h.blockCount
  rw [hindex, h.packed.sealedCount]
  by_cases hblock : count / blockSize < packs.length + column.blocks.length
  · have hfull : blockSize ≤ values.length := by
      have hsome : 0 < values.length / blockSize := by
        rw [← htotal]
        exact Nat.zero_lt_of_lt hblock
      exact (Nat.div_pos_iff.mp hsome).2
    rw [if_pos hblock]
    obtain ⟨column', hreopen, hstores, hblocks, -, hroom, hpending⟩ := h.toStores.reopen hblock
      hlimit (show 0 + count % blockSize ≤ blockSize by omega) (h.pendingFull hfull)
      nofun
    rw [← hblocks] at hblock
    obtain ⟨packs', hkept, hdropped⟩ := hstores.dropBlocks hcount.le hblock
    have hfields : (column'.dropBlocks (count / blockSize)).pending = column'.pending ∧
        (column'.dropBlocks (count / blockSize)).cursor = column'.cursor := by
      unfold Column.dropBlocks
      split <;> exact ⟨rfl, rfl⟩
    refine ⟨column'.dropBlocks (count / blockSize), packs', by rw [hreopen]; rfl, ?_⟩
    rw [hfields.2]
    refine ⟨hdropped, hlength.symm, hlength.symm ▸ hkept, ?_, ?_, ?_, ?_⟩
    · change _ ≤ (column'.dropBlocks (count / blockSize)).pending.length
      rw [hfields.1, hroom, hlength]
      exact hmod.le
    · change (column'.dropBlocks (count / blockSize)).pending.length ≤ _
      rw [hfields.1, hroom]
    · intro _
      change (column'.dropBlocks (count / blockSize)).pending.length = _
      rw [hfields.1, hroom]
    · intro offset hoffset
      rw [hlength] at hoffset ⊢
      change (column'.dropBlocks (count / blockSize)).pending[offset]? = _
      rw [hfields.1, hpending offset (by omega), getElem?_take_of_lt]
      rw [Nat.mul_comm]
      omega
  · rw [if_neg hblock]
    have hsame : count / blockSize = values.length / blockSize := by
      have := Nat.div_le_div_right (c := blockSize) hcount.le
      omega
    have hsplit' := Nat.div_add_mod values.length blockSize
    have hmodle : count % blockSize ≤ values.length % blockSize := by
      rw [hsame] at hsplit
      omega
    refine ⟨column, packs, rfl, ⟨h.packed, h.places, ?_, fun place block hget => ?_,
      fun index _ _ hhigh => absurd hhigh (Nat.not_lt_zero _)⟩, hlength.symm, ?_, ?_, h.pendingHigh,
      ?_, ?_⟩
    · rw [hlength, htotal, ← hsame]
      exact Nat.div_mul_le_self count blockSize
    · obtain ⟨hplace, -⟩ := List.getElem?_eq_some_iff.mp hget
      rw [length_append, htotal, ← hsame] at hplace
      rw [chunk_take (le_trans (Nat.mul_le_mul_right _ hplace) (Nat.div_mul_le_self count _))]
      exact h.blocks place block hget
    · rw [hlength, hsame]
      exact htotal
    · rw [hlength]
      exact le_trans hmodle h.pendingLow
    · intro hlong
      exact h.pendingFull (by omega)
    · intro offset hoffset
      rw [hlength] at hoffset ⊢
      rw [getElem?_take_of_lt (by rw [Nat.mul_comm]; omega), hsame]
      exact h.pending offset (by omega)

theorem Column.StandsFor.truncate (h : column.StandsFor littleEndian packs values)
    (hlimit : values.length ≤ uint32Limit) (count : Float) :
    ∃ packs', ((column.truncate littleEndian count).toOption.getD column).StandsFor
      littleEndian packs' (nextContents values (.truncate count)) := by
  unfold Column.truncate
  rw [h.count]
  by_cases hsafe : Binary64.isSafeInteger count = true
  · obtain ⟨hequal, hnegative, hbeyond⟩ := compare_count hsafe hlimit
    by_cases hsame : Binary64.truncate count = values.length
    · rw [if_pos (hequal.mpr hsame)]
      have htake : nextContents values (.truncate count) = values := by
        rw [nextContents, hsame, Int.toNat_natCast, take_length, ite_self]
      exact ⟨packs, htake.symm ▸ h⟩
    rw [if_neg (fun hbad => hsame (hequal.mp hbad))]
    by_cases hrange : 0 ≤ Binary64.truncate count ∧ Binary64.truncate count ≤ values.length
    · have hvalid : ¬(!Binary64.isSafeInteger count || decide (count < number 0) ||
          decide (number values.length < count)) = true := by
        simp only [hsafe, hnegative, hbeyond, Bool.not_true, Bool.false_or, Bool.or_eq_true,
          decide_eq_true_eq]
        omega
      have htake : nextContents values (.truncate count) =
          values.take (Binary64.truncate count).toNat := by
        rw [nextContents, if_pos]
        simp [isCount, hsafe, hrange.1, hrange.2]
      obtain ⟨column', packs', hresult, hstands⟩ := h.truncateTo hlimit
        (show (Binary64.truncate count).toNat < values.length by omega)
      rw [if_neg hvalid, htake]
      dsimp only
      rw [hresult]
      exact ⟨packs', hstands⟩
    · have hinvalid : (!Binary64.isSafeInteger count || decide (count < number 0) ||
          decide (number values.length < count)) = true := by
        simp only [hsafe, hnegative, hbeyond, Bool.not_true, Bool.false_or, Bool.or_eq_true,
          decide_eq_true_eq]
        omega
      have hkeep : nextContents values (.truncate count) = values := by
        rw [nextContents, if_neg]
        simp only [isCount, Bool.and_eq_true, decide_eq_true_eq]
        exact fun hbad => hrange ⟨hbad.1.2, hbad.2⟩
      rw [if_pos hinvalid, hkeep]
      exact ⟨packs, h⟩
  · have hkeep : nextContents values (.truncate count) = values := by
      rw [nextContents, if_neg]
      simp only [isCount, Bool.and_eq_true]
      exact fun hbad => hsafe hbad.1.1
    rw [hkeep]
    split
    · exact ⟨packs, h⟩
    · rw [if_pos (by simp [hsafe])]
      exact ⟨packs, h⟩

theorem NumericArray.numbers_subarray (items : NumericArray) (start : Nat) :
    (items.subarray start).numbers = (items.numbers.drop start).take blockSize := by
  cases items <;> simp [NumericArray.subarray, NumericArray.numbers, map_take, map_drop]

theorem getElem?_copyInto {numbers : List Float} {start count : Nat}
    (hcount : start + count ≤ numbers.length) (h : offset < count) :
    (copyInto numbers start count pending)[offset]? = numbers[start + offset]? := by
  have hlength : ((numbers.drop start).take count).length = count := by
    rw [length_take, length_drop]
    omega
  rw [copyInto, getElem?_append_left (by omega), getElem?_take_of_lt h,
    getElem?_drop]

theorem length_copyInto {numbers : List Float} {start count : Nat}
    (hcount : start + count ≤ numbers.length) (hpending : count ≤ pending.length) :
    (copyInto numbers start count pending).length = pending.length := by
  rw [copyInto, length_append, length_take, length_drop, length_drop]
  omega

structure Filling (numbers : List Float) (start : Nat) (blocks : List Block)
    (pending : List Float) : Prop where
  room : pending.length = blockSize
  represents : ∀ place block, blocks[place]? = some block → Represents block (chunk numbers place)
  place : start ≤ numbers.length ∧ start = blocks.length * blockSize ∨
    numbers.length < start ∧ blocks.length = numbers.length / blockSize ∧
      ∀ offset < numbers.length % blockSize,
        pending[offset]? = numbers[numbers.length / blockSize * blockSize + offset]?

theorem Filling.seal {numbers : List Float} {blocks : List Block} {pending' : List Float}
    {values : NumericArray} (h : Filling numbers (blocks.length * blockSize) blocks pending)
    (hroom : pending'.length = blockSize)
    (hwhole : (blocks.length + 1) * blockSize ≤ numbers.length)
    (hvalues : values.numbers = chunk numbers blocks.length) :
    Filling numbers (blocks.length * blockSize + blockSize) (blocks ++ [«seal» values]) pending' := by
  refine ⟨hroom, fun place block hget => ?_, Or.inl ⟨?_, ?_⟩⟩
  · by_cases hold : place < blocks.length
    · rw [getElem?_append_left hold] at hget
      exact h.represents place block hget
    · obtain ⟨hplace, -⟩ := List.getElem?_eq_some_iff.mp hget
      rw [length_append, length_singleton] at hplace
      obtain rfl : place = blocks.length := by omega
      rw [getElem?_append_right le_rfl] at hget
      obtain rfl := mem_singleton.mp (mem_of_getElem? hget)
      rw [← hvalues]
      exact seal_represents (by rw [hvalues, length_chunk hwhole])
  · rwa [← Nat.succ_mul]
  · rw [length_append, length_singleton, Nat.succ_mul]

theorem takeBlock_part {values : Source} {start count : Nat} {blocks : List Block}
    (h : count ≠ blockSize) :
    takeBlock start count blocks pending values =
      (blocks, copyInto values.numbers start count pending) := by
  cases values with
  | typed items => exact if_neg h
  | other items => exact Prod.ext (if_neg h) rfl

theorem takeBlock_filling {values : Source} {blocks : List Block}
    (h : Filling values.numbers (blocks.length * blockSize) blocks pending)
    (hstart : blocks.length * blockSize < values.numbers.length) :
    let taken := takeBlock (blocks.length * blockSize)
      (min blockSize (values.numbers.length - blocks.length * blockSize)) blocks pending values
    Filling values.numbers (blocks.length * blockSize + blockSize) taken.1 taken.2 := by
  have hroom := h.room
  by_cases hfull : blockSize ≤ values.numbers.length - blocks.length * blockSize
  · have hwhole : (blocks.length + 1) * blockSize ≤ values.numbers.length := by
      rw [Nat.succ_mul]
      omega
    rw [Nat.min_eq_left hfull]
    cases values with
    | typed items =>
      simp only [takeBlock, if_true]
      exact h.seal hroom hwhole (items.numbers_subarray _)
    | other items =>
      simp only [takeBlock, if_true]
      have hcopied : copyInto items (blocks.length * blockSize) blockSize pending =
          chunk items blocks.length := by
        rw [copyInto, drop_eq_nil_of_le hroom.le, append_nil]
        rfl
      have hcopiedRoom : (copyInto items (blocks.length * blockSize) blockSize pending).length =
          blockSize := by
        rw [hcopied]
        exact length_chunk hwhole
      exact @Filling.seal _ _ _ _ (.float64 _) h hcopiedRoom hwhole hcopied
  · have hmod : values.numbers.length % blockSize =
        values.numbers.length - blocks.length * blockSize := by
      unfold blockSize at *
      omega
    have hdiv : values.numbers.length / blockSize = blocks.length := by
      unfold blockSize at *
      omega
    have hfits : blocks.length * blockSize +
        (values.numbers.length - blocks.length * blockSize) ≤ values.numbers.length := by omega
    have hnew : takeBlock (blocks.length * blockSize)
        (min blockSize (values.numbers.length - blocks.length * blockSize)) blocks pending values =
        (blocks, copyInto values.numbers (blocks.length * blockSize)
          (values.numbers.length - blocks.length * blockSize) pending) := by
      rw [Nat.min_eq_right (not_le.mp hfull).le]
      exact takeBlock_part (not_le.mp hfull).ne
    rw [hnew]
    refine ⟨?_, h.represents, Or.inr ⟨by omega, hdiv.symm, fun offset hoffset => ?_⟩⟩
    · rw [length_copyInto hfits (by omega), hroom]
    · rw [hdiv]
      exact getElem?_copyInto hfits (by omega)

theorem fillFrom_filling {values : Source} {start : Nat} {blocks : List Block}
    (h : Filling values.numbers start blocks pending) :
    (fillFrom values start blocks pending).2.length = blockSize ∧
      (fillFrom values start blocks pending).1.length = values.numbers.length / blockSize ∧
      (∀ place block, (fillFrom values start blocks pending).1[place]? = some block →
        Represents block (chunk values.numbers place)) ∧
      ∀ offset < values.numbers.length % blockSize,
        (fillFrom values start blocks pending).2[offset]? =
          values.numbers[values.numbers.length / blockSize * blockSize + offset]? := by
  fun_induction fillFrom values start blocks pending with
  | case1 start blocks pending hlt taken ih =>
    obtain ⟨-, rfl⟩ := h.place.resolve_right fun hbad => absurd hbad.1 (not_lt.mpr hlt.le)
    exact ih (takeBlock_filling h hlt)
  | case2 start blocks pending hge =>
    obtain ⟨hle, hstart⟩ | ⟨-, hcount, hpending⟩ := h.place
    · have hwhole : values.numbers.length = blocks.length * blockSize := by omega
      refine ⟨h.room, ?_, h.represents, fun offset hoffset => ?_⟩
      · rw [hwhole]
        exact (Nat.mul_div_cancel _ (by decide)).symm
      · rw [hwhole, Nat.mul_mod_left] at hoffset
        cases hoffset
    · exact ⟨h.room, hcount, h.represents, hpending⟩

theorem Column.ofSource_standsFor {values : Source} (hplaces : WithinOffsets (filled values).1) :
    (Column.ofSource littleEndian values).StandsFor littleEndian (filled values).1
      values.numbers := by
  have hwritten := @writeBlocks_eq littleEndian (filled values).1 []
    (List.replicate ((filled values).1.map Block.size).sum 0)
    (fun block hblock => by simpa using hplaces block hblock) length_replicate
  have hpacked : PackedAs littleEndian (Column.ofSource littleEndian values).sealedBlocks
      (filled values).1 := ⟨rfl, hwritten⟩
  have hcursor : (Column.ofSource littleEndian values).cursor.ReadsWithin values.numbers :=
    fun index _ _ hhigh => absurd hhigh (Nat.not_lt_zero _)
  by_cases hempty : 0 < values.numbers.length
  · have hfilling : Filling values.numbers 0 [] (List.replicate blockSize (number 0)) :=
      ⟨length_replicate, nofun, Or.inl ⟨Nat.zero_le _, (Nat.zero_mul _).symm⟩⟩
    obtain ⟨hroom, hcount, hrepresents, hpending⟩ := fillFrom_filling hfilling
    have hfilled : filled values =
        fillFrom values 0 [] (List.replicate blockSize (number 0)) := by
      rw [filled, if_pos hempty]
    rw [← hfilled] at hroom hcount hrepresents hpending
    refine ⟨⟨hpacked, hplaces, ?_, ?_, hcursor⟩, rfl, hcount, ?_, hroom.le, fun _ => hroom,
      hpending⟩
    · change ((filled values).1.length + 0) * blockSize ≤ _
      rw [Nat.add_zero, hcount]
      exact Nat.div_mul_le_self _ _
    · intro place block hget
      exact hrepresents place block (by simpa [Column.ofSource, Column.packBlocks] using hget)
    · exact le_trans (Nat.mod_lt _ (by decide)).le hroom.ge
  · have hnil : values.numbers = [] := length_eq_zero_iff.mp (by omega)
    have hfilled : filled values = ([], []) := by
      rw [filled, fillFrom, if_neg hempty, if_neg hempty]
    rw [hfilled] at hpacked hplaces ⊢
    rw [hnil] at hcursor ⊢
    refine ⟨⟨hpacked, hplaces, ?_, ?_, hcursor⟩, ?_, ?_, ?_, ?_, nofun, nofun⟩
    all_goals simp [Column.ofSource, Column.packBlocks, hfilled, hnil]

theorem Column.StandsFor.read (h : column.StandsFor littleEndian packs values) (index : Nat) :
    (((column.at littleEndian index).map Prod.snd).getD column).StandsFor littleEndian packs
      values := by
  unfold Column.at
  split
  · exact h
  dsimp only
  by_cases hblock : index % uint32Limit / blockSize < packs.length + column.blocks.length
  · obtain ⟨value, cursor, hread, -, hcursor⟩ := h.toStores.readAt hblock
      (Nat.mod_lt index (show 0 < blockSize by decide)) (index - index % blockSize)
    rw [hread]
    refine h.withCursor (h.toStores.withCursor ?_)
    change cursor.ReadsWithin values
    obtain rfl | hcovers := hcursor
    · exact h.cursor
    · intro place hplace hlow hhigh
      have horigin := hcovers.start
      have hlimit : index < uint32Limit := by
        -- past the limit the cursor starts past it as well
        unfold uint32Limit blockSize at *
        omega
      have hstart : index - index % blockSize =
          index % uint32Limit / blockSize * blockSize := by
        have := shift_index hlimit
        omega
      rw [hstart] at hcovers
      exact hcovers.reads_values hlow hhigh
  · rw [Column.readAt, h.packed.sealedCount, if_neg (by omega)]
    split
    · cases column.pending[index % blockSize]? with
      | none => exact h
      | some value => exact h
    · rw [getElem?_eq_none (by omega)]
      exact h

end

/-- The column a run starts from: a new one, or one made from values. -/
def startColumn (littleEndian : Bool) : Option Source → Column
  | none => Column.empty
  | some values => Column.ofSource littleEndian values

def startValues : Option Source → List Float
  | none => []
  | some values => values.numbers

/-- The run stays within the 32 bits of an index and of a packed offset. -/
structure Within32Bits (source : Option Source) (operations : List Operation) : Prop where
  places : ∀ values, source = some values → WithinOffsets (filled values).1
  lengths : ∀ count, (contents (startValues source) (operations.take count)).length ≤ uint32Limit

section
variable {littleEndian : Bool}

theorem startColumn_standsFor {source : Option Source}
    (h : ∀ values, source = some values → WithinOffsets (filled values).1) :
    ∃ packs, (startColumn littleEndian source).StandsFor littleEndian packs
      (startValues source) := by
  cases source with
  | none =>
    refine ⟨[], ⟨rfl, nofun, (Nat.zero_mul _).le, nofun, ?_⟩, rfl, rfl, Nat.zero_le _,
      Nat.zero_le _, nofun, nofun⟩
    exact fun index _ _ hhigh => absurd hhigh (Nat.not_lt_zero _)
  | some values => exact ⟨_, Column.ofSource_standsFor (h values rfl)⟩

theorem Column.StandsFor.step {column : Column} {packs : List Block} {values : List Float}
    (h : column.StandsFor littleEndian packs values) (hlimit : values.length ≤ uint32Limit)
    (operation : Operation) :
    ∃ packs', (column.step littleEndian operation).StandsFor littleEndian packs'
      (nextContents values operation) := by
  cases operation with
  | append value => exact ⟨packs, h.append value⟩
  | read index => exact ⟨packs, h.read index⟩
  | truncate count => exact h.truncate hlimit count

theorem Column.StandsFor.run {operations : List Operation} {column : Column}
    {packs : List Block} {values : List Float} (h : column.StandsFor littleEndian packs values)
    (hlimit : ∀ count, (contents values (operations.take count)).length ≤ uint32Limit) :
    ∃ packs', (column.run littleEndian operations).StandsFor littleEndian packs'
      (contents values operations) := by
  induction operations generalizing column packs values with
  | nil => exact ⟨packs, h⟩
  | cons operation operations ih =>
    have hfirst := hlimit 0
    rw [take_zero, contents, foldl_nil] at hfirst
    obtain ⟨packs', hnext⟩ := h.step hfirst operation
    refine ih hnext fun count => ?_
    have hlater := hlimit (count + 1)
    rwa [take_succ_cons, contents, foldl_cons] at hlater

end

theorem length_contents_le (values : List Float) (operations : List Operation) :
    (contents values operations).length ≤ values.length + operations.length := by
  induction operations generalizing values with
  | nil => exact le_rfl
  | cons operation operations ih =>
    have hnext : (nextContents values operation).length ≤ values.length + 1 := by
      cases operation with
      | append value => exact (length_append ..).le
      | read index => exact Nat.le_succ _
      | truncate count =>
        simp only [nextContents]
        split
        · exact le_trans (length_take_le' ..) (Nat.le_succ _)
        · exact Nat.le_succ _
    have hrest := ih (nextContents values operation)
    rw [contents, foldl_cons, length_cons]
    change (contents (nextContents values operation) operations).length ≤ _
    omega

section
variable {littleEndian : Bool}

theorem contents_appends (values later : List Float) :
    contents values (later.map .append) = values ++ later := by
  induction later generalizing values with
  | nil => exact (append_nil values).symm
  | cons value later ih =>
    rw [map_cons, contents, foldl_cons]
    exact (ih _).trans (append_assoc ..)

theorem Column.StandsFor.appends {column : Column} {packs : List Block} {values : List Float}
    (h : column.StandsFor littleEndian packs values) (later : List Float) :
    (column.run littleEndian (later.map .append)).StandsFor littleEndian packs (values ++ later) ∧
      (column.run littleEndian (later.map .append)).cursor = column.cursor := by
  induction later generalizing column values with
  | nil => exact ⟨by rwa [append_nil], rfl⟩
  | cons value later ih =>
    obtain ⟨hstands, hcursor⟩ := ih (h.append value)
    rw [append_assoc] at hstands
    exact ⟨hstands, hcursor⟩

/-- At an index of 33 bits the value of the index without its highest bit is read. -/
theorem Column.StandsFor.at_limit {column : Column} {packs : List Block} {values : List Float}
    (h : column.StandsFor littleEndian packs values) (hcursor : column.cursor.finish = 0)
    (hlength : uint32Limit < values.length) {value : Float} (hvalue : values[0]? = some value) :
    ∃ column', column.at littleEndian uint32Limit = some (value, column') := by
  have hblock : 0 < packs.length + column.blocks.length := by
    rw [h.blockCount]
    refine Nat.div_pos (le_trans ?_ hlength.le) (by decide)
    decide
  obtain ⟨value', cursor, hread, hvalue', -⟩ := h.toStores.readAt hblock
    (show 0 < blockSize by decide) (uint32Limit - 0)
  rw [Nat.zero_mul, hvalue] at hvalue'
  obtain rfl := Option.some.inj hvalue'
  refine ⟨{ column with cursor := cursor }, ?_⟩
  have hindex : uint32Limit % uint32Limit / blockSize = 0 := by decide
  have hoffset : uint32Limit % blockSize = 0 := by decide
  rw [Column.at, if_neg (by rw [hcursor]; omega)]
  dsimp only
  rw [hindex, hoffset, hread]
  rfl

end

end Softmaple.SpanColumn
