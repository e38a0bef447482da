import Mathlib.Tactic
import OpcodeRecovery.Bytes.Cursor
import OpcodeRecovery.Proofs.Code.Inference

/-!
Decoding never looks outside the code.

Cutting operands off a list cannot go wrong in that way, so the statement is about a decoder that
could. `Guarded.decode` decodes by a cursor over the code, whose reads fail behind the end of the
data; it looks ahead by indices into the code, and computes sizes in 64-bit words. It stops with a
reason (`Guarded.Stop`) where a read fails, an index lies outside, a size outgrows its word, more
room is set aside than the bytes that are left can fill, or nothing was read in a round.

* `Guarded.Mirrors`: it ends as the plain decoder does, with values that correspond, or with the
  same error. A sequence of steps that do, does (`Guarded.Mirrors.bind`). So operands are read
  alike (`Guarded.declared_mirrors`, `Guarded.inferred_mirrors`), widths are inferred alike
  (`Guarded.support_eq`, `Guarded.infer_eq`), and so are instructions
  (`Guarded.instruction_mirrors`) and, by induction on the bytes that are left, the whole code
  (`Guarded.scan_mirrors`).
* `decodeCode_in_bounds`: so it never stops for one of the reasons above, and code that is not
  decoded is malformed.
-/

namespace OpcodeRecovery

open Decode (Place operandBytes operandBytes_of_le)

/-! ### The guarded decoder -/

namespace Guarded

/-- Why the guarded decoder stops. -/
inductive Stop where
  /-- It fails with an error. -/
  | failed (e : Error)
  /-- It looks at a byte that is not there. -/
  | index (position : ℕ)
  /-- A number outgrows its word. -/
  | overflow
  /-- Room is set aside for more targets than the bytes that are left can hold. -/
  | reservation (count remaining : ℕ)
  /-- A round has read nothing, so that another one would follow for ever. -/
  | stuck
  deriving DecidableEq, Repr

/-- A result of the library, for a decoder that may stop for more reasons. -/
def lift {α : Type} : Except Error α → Except Stop α
  | .ok a => .ok a
  | .error e => .error (.failed e)

/-- A sum that is checked: there is none if it outgrows a word. -/
def checkedAdd (a b : ℕ) : Option ℕ := if a + b < 2 ^ 64 then some (a + b) else none

/-- A product that is checked. -/
def checkedMul (a b : ℕ) : Option ℕ := if a * b < 2 ^ 64 then some (a * b) else none

/-- A sum that is not checked, and must not outgrow a word. -/
def add (a b : ℕ) : Except Stop ℕ := if a + b < 2 ^ 64 then .ok (a + b) else .error .overflow

/-- Sets room aside for some targets of four bytes each. -/
def reserve (count remaining : ℕ) : Except Stop Unit :=
  if count ≤ remaining / 4 then .ok () else .error (.reservation count remaining)

/-- Reads a number and moves the cursor behind it. -/
def read (c : Cursor) (kind : Cursor.NumberKind) : Except Stop (ℤ × Cursor) :=
  match c.number kind with
  | (.ok v, c) => .ok (v, c)
  | (.error e, _) => .error (.failed e)

/-- Refuses an operand that needs more bytes than are left. -/
def ensure (p : Place) (c : Cursor) (needed : ℕ) : Except Stop Unit :=
  if c.remaining < needed then
    .error (.failed (.format (.operandOverrun p.opcode p.offset needed c.remaining)))
  else .ok ()

/-- Reads the targets of a switch. -/
def targets (p : Place) (finish : ℕ) : ℕ → Cursor → Except Stop (List ℕ × Cursor)
  | 0, c => .ok ([], c)
  | n + 1, c => do
    let (v, c) ← read c .i32
    let t ← lift (Decode.target p finish (Int32.ofInt v))
    let (ts, c) ← targets p finish n c
    return (t :: ts, c)

/-- Reads an operand that is a single number. -/
def single (c : Cursor) (kind : Cursor.NumberKind) (make : ℤ → Operand) :
    Except Stop (Operand × Cursor) := do
  let (v, c) ← read c kind
  return (make v, c)

/-- Reads an operand of a declared shape. -/
def declared (p : Place) (c : Cursor) : OperandShape → Except Stop (Operand × Cursor)
  | .none => .ok (.none, c)
  | .byte => do
    ensure p c 1
    single c .u8 fun v => .byte (UInt8.ofNat v.toNat)
  | .int32 => do
    ensure p c 4
    single c .i32 fun v => .int32 (Int32.ofInt v)
  | .int64 => do
    ensure p c 8
    single c .i64 fun v => .int64 (Int64.ofInt v)
  | .token => do
    ensure p c 4
    single c .u32 fun v => .token ⟨UInt32.ofNat v.toNat⟩
  | .branch => do
    ensure p c 4
    let (v, c) ← read c .i32
    let t ← lift (Decode.target p c.position (Int32.ofInt v))
    return (.branch t, c)
  | .switch => do
    ensure p c 4
    let (count, c) ← read c .u32
    match checkedMul count.toNat 4 with
    | none =>
      .error (.failed (.format (.note
        ("Switch at " ++ offsetLabel p.offset ++ s!" declares {count} targets"))))
    | some size =>
      ensure p c size
      let finish ← add c.position size
      reserve count.toNat c.remaining
      let (ts, c) ← targets p finish count.toNat c
      return (.switch ts, c)

/-- Reads an operand of an inferred width. -/
def inferred (p : Place) (c : Cursor) (width : Width) : Except Stop (Operand × Cursor) := do
  ensure p c width.size
  match width with
  | .zero => return (.none, c)
  | .one => single c .u8 fun v => .byte (UInt8.ofNat v.toNat)
  | .four => single c .i32 fun v => .int32 (Int32.ofInt v)
  | .eight => single c .i64 fun v => .int64 (Int64.ofInt v)

/-- The size of a switch whose count stands at the cursor, if the count is there. -/
def countSize (c : Cursor) : Option ℕ :=
  match c.number .u32 with
  | (.error _, _) => none
  | (.ok count, _) => (checkedMul count.toNat 4).bind (checkedAdd · 4)

/-- The size of the operand behind the opcode at a position, if it is known. The count of a switch
is read by a cursor of its own. -/
def knownSize (table : ShapeTable) (memory : Width.Memory) (code : Bytes) (position : ℕ) :
    Except Stop (Option ℕ) :=
  match code[position]? with
  | none => .error (.index position)
  | some opcode =>
    match table.get? opcode with
    | some .switch =>
      match (Cursor.start code).seek (position + 1) with
      | (.error _, _) => .ok none
      | (.ok _, c) => .ok (countSize c)
    | some shape => .ok shape.fixedSize?
    | none => .ok ((memory.lookup opcode).map Width.size)

/-- How many instructions from a position on are known and fit, of which some were seen before and
`left` may still be looked at. -/
def support (table : ShapeTable) (memory : Width.Memory) (code : Bytes) :
    ℕ → ℕ → Except Stop ℕ
  | 0, _ => .ok Width.lookahead
  | left + 1, position =>
    if position = code.length then .ok Width.lookahead
    else do
      match ← knownSize table memory code position with
      | none => return Width.lookahead - (left + 1)
      | some size =>
        let step ← add 1 size
        match checkedAdd position step with
        | none => return Width.lookahead - (left + 1)
        | some finish =>
          if finish ≤ code.length then support table memory code left finish
          else return Width.lookahead - (left + 1)

/-- The best candidate so far with its support, after trying one more. -/
def better (table : ShapeTable) (memory : Width.Memory) (c : Cursor) (best : ℕ × Width)
    (width : Width) : Except Stop (ℕ × Width) :=
  match checkedAdd c.position width.size with
  | none => .ok best
  | some finish =>
    if finish ≤ c.data.length then do
      let s ← support table memory c.data Width.lookahead finish
      return if s > best.1 then (s, width) else best
    else .ok best

/-- Infers the width of the operand at the cursor. -/
def infer (table : ShapeTable) (memory : Width.Memory) (c : Cursor) : Except Stop Width := do
  let best ← Width.candidates.foldlM (better table memory c) (0, .zero)
  return best.2

/-- Reads the instruction at the cursor. -/
def instruction (table : ShapeTable) (memory : Width.Memory) (c : Cursor) :
    Except Stop (Instruction × Width.Memory × Cursor) := do
  let (v, next) ← read c .u8
  let p : Place := ⟨UInt8.ofNat v.toNat, c.position, c.data.length⟩
  match table.get? p.opcode with
  | some shape =>
    let (operand, behind) ← declared p next shape
    return (⟨c.position, behind.position - c.position, p.opcode, operand, .declared⟩, memory,
      behind)
  | none =>
    let (width, memory) ←
      match memory.lookup p.opcode with
      | some width => pure (width, memory)
      | none => do
        let width ← infer table memory next
        pure (width, (p.opcode, width) :: memory)
    let (operand, behind) ← inferred p next width
    return (⟨c.position, behind.position - c.position, p.opcode, operand, .inferred⟩, memory,
      behind)

/-- Reads instructions from the cursor to the end of the code. -/
def scan (table : ShapeTable) (memory : Width.Memory) (c : Cursor) :
    Except Stop (List Instruction) :=
  if c.hasMore then do
    let (i, memory, behind) ← instruction table memory c
    if _h : behind.remaining < c.remaining then
      let is ← scan table memory behind
      return i :: is
    else .error .stuck
  else .ok []
termination_by c.remaining

/-- Decodes code by a cursor. -/
def decode (table : ShapeTable) (code : Bytes) : Except Stop (List Instruction) := do
  let is ← scan table [] (.start code)
  lift (Decode.settle code.length is)


/-! ### Doing the same -/

section Mirroring

variable {α β γ δ : Type} {R : α → β → Prop} {S : γ → δ → Prop}

@[simp] lemma ok_bind (b : β) (g : β → Except Stop δ) : (Except.ok b >>= g) = g b := rfl

/-- The guarded computation ends as the plain one does: with values that correspond, or with the
same error. -/
inductive Mirrors (R : α → β → Prop) : Except Error α → Except Stop β → Prop where
  | ok {a : α} {b : β} (h : R a b) : Mirrors R (.ok a) (.ok b)
  | failed (e : Error) : Mirrors R (.error e) (.error (.failed e))

lemma Mirrors.bind {x : Except Error α} {y : Except Stop β} {f : α → Except Error γ}
    {g : β → Except Stop δ} (h : Mirrors R x y) (hfg : ∀ a b, R a b → Mirrors S (f a) (g b)) :
    Mirrors S (x >>= f) (y >>= g) := by
  cases h with
  | ok h => exact hfg _ _ h
  | failed e => exact .failed e

lemma mirrors_lift (x : Except Error α) : Mirrors (fun a b => b = a) x (lift x) := by
  cases x with
  | ok a => exact .ok rfl
  | error e => exact .failed e

lemma Mirrors.eq_lift {x : Except Error α} {y : Except Stop α}
    (h : Mirrors (fun a b => b = a) x y) : y = lift x := by
  cases h with
  | ok h => exact congrArg Except.ok h
  | failed e => rfl

end Mirroring

/-! ### Reading operands -/

section Operands

variable {p : Place} {c c' : Cursor} {n before : ℕ}

/-- The second cursor stands some bytes behind the first one, in the same data. -/
structure Behind (c : Cursor) (n : ℕ) (c' : Cursor) : Prop where
  data : c'.data = c.data
  position : c'.position = c.position + n

lemma Behind.rest (h : Behind c n c') : c'.rest = c.rest.drop n := by
  rw [Cursor.rest, Cursor.rest, h.data, h.position, List.drop_drop]

lemma length_rest (c : Cursor) : c.rest.length = c.remaining := List.length_drop

lemma Behind.trans {n' : ℕ} {c'' : Cursor} (h : Behind c n c') (h' : Behind c' n' c'') :
    Behind c (n + n') c'' :=
  ⟨h'.data.trans h.data, by rw [h'.position, h.position, Nat.add_assoc]⟩

/-- A read of bytes that are there succeeds. -/
lemma exists_read (kind : Cursor.NumberKind) (h : kind.width ≤ c.remaining) :
    ∃ c', read c kind = .ok (kind.interpret (Bytes.toNatLE (c.rest.take kind.width)), c')
      ∧ Behind c kind.width c' := by
  have hfit : c.position + kind.width ≤ c.data.length := by
    have hle := c.position_le
    rw [Cursor.remaining] at h
    omega
  refine ⟨⟨c.data, c.position + kind.width, hfit⟩, ?_, rfl, rfl⟩
  rw [read, Cursor.number, dif_pos hfit]

/-- The size check of an operand lets pass what can be cut off. -/
lemma ensure_mirrors (hposition : c.position = p.offset + before)
    (hsize : p.codeSize = c.data.length) (n : ℕ) :
    Mirrors (fun r _ => n ≤ c.remaining ∧ r = (c.rest.take n, c.rest.drop n))
      (operandBytes p before n c.rest) (ensure p c n) := by
  by_cases hfit : n ≤ c.remaining
  · rw [operandBytes_of_le before (by rwa [length_rest]), ensure, if_neg (by omega)]
    exact .ok ⟨hfit, rfl⟩
  · have hcut : Bytes.split? n c.rest = none := if_neg (by rwa [length_rest])
    have hleft : p.codeSize - (p.offset + before) = c.remaining := by
      rw [hsize, ← hposition, Cursor.remaining]
    rw [operandBytes, hcut, ensure, if_pos (by omega), hleft]
    exact .failed _

lemma interpret_of_signed {kind : Cursor.NumberKind} (h : kind.signed = true) (bits : ℕ) :
    kind.interpret bits = Int.bmod bits (Bytes.capacity kind.width) :=
  if_pos h

lemma ofInt_interpret_i32 (bs : Bytes) :
    Int32.ofInt (Cursor.NumberKind.i32.interpret bs.toNatLE) = Decode.int32 bs := by
  refine Int32.toInt_inj.mp ?_
  rw [interpret_of_signed rfl, Decode.int32, Int32.toInt_ofInt, Int32.toInt_ofNat',
    show Int32.size = Bytes.capacity Cursor.NumberKind.i32.width from rfl, Int.bmod_bmod]

lemma ofInt_interpret_i64 (bs : Bytes) :
    Int64.ofInt (Cursor.NumberKind.i64.interpret bs.toNatLE) = Decode.int64 bs := by
  refine Int64.toInt_inj.mp ?_
  rw [interpret_of_signed rfl, Decode.int64, Int64.toInt_ofInt, Int64.toInt_ofNat',
    show Int64.size = Bytes.capacity Cursor.NumberKind.i64.width from rfl, Int.bmod_bmod]

/-- The 32-bit number of a target is read where four bytes are left. -/
lemma exists_read_i32 (h : 4 ≤ c.remaining) :
    ∃ v c', read c .i32 = .ok (v, c') ∧ Int32.ofInt v = Decode.int32 (c.rest.take 4)
      ∧ Behind c 4 c' := by
  obtain ⟨c', hread, hbehind⟩ := exists_read .i32 h
  exact ⟨_, c', hread, ofInt_interpret_i32 _, hbehind⟩

/-- An operand that is a single number is made of the bytes that are there. -/
lemma single_mirrors {α : Type} {R : α → Operand × Cursor → Prop} {a : α}
    {kind : Cursor.NumberKind} {make : ℤ → Operand} (h : kind.width ≤ c.remaining)
    (hmade : ∀ c', Behind c kind.width c' →
      R a (make (kind.interpret (Bytes.toNatLE (c.rest.take kind.width))), c')) :
    Mirrors R (.ok a) (single c kind make) := by
  obtain ⟨c', hread, hbehind⟩ := exists_read kind h
  rw [single, hread, ok_bind]
  exact .ok (hmade c' hbehind)

/-- What an operand is read as, with the cursor behind it. -/
def ReadBehind (c : Cursor) (r : Operand × ℕ) (r' : Operand × Cursor) : Prop :=
  r'.1 = r.1 ∧ Behind c r.2 r'.2

/-- The targets of a switch are read from bytes that are there. -/
lemma targets_mirrors (finish : ℕ) {bs : Bytes} (hbs : bs <+: c.rest) (hlen : bs.length = 4 * n) :
    Mirrors (fun ts r => r.1 = ts ∧ Behind c (4 * n) r.2) (Decode.targets p finish n bs)
      (targets p finish n c) := by
  induction n generalizing c bs with
  | zero => exact .ok ⟨rfl, rfl, rfl⟩
  | succ n ih =>
      have hroom : 4 ≤ c.remaining := by
        have hle := hbs.length_le
        rw [length_rest] at hle
        omega
      obtain ⟨v, c', hread, hv, hbehind⟩ := exists_read_i32 hroom
      obtain ⟨tail, htail⟩ := hbs
      have hfirst : c.rest.take 4 = bs.take 4 := by
        rw [← htail, List.take_append_of_le_length (by omega)]
      have hrest : bs.drop 4 <+: c'.rest := by
        refine ⟨tail, ?_⟩
        rw [hbehind.rest, ← htail]
        exact (List.drop_append_of_le_length (by omega)).symm
      rw [targets, Decode.targets, hread, ok_bind]
      dsimp only
      rw [hv, hfirst]
      refine (mirrors_lift _).bind fun t _ ht => ?_
      subst ht
      refine (ih hrest (by rw [List.length_drop]; omega)).bind fun ts r hr => ?_
      obtain ⟨rfl, hnext⟩ := hr
      refine .ok ⟨rfl, ?_⟩
      have hsum : 4 * (n + 1) = 4 + 4 * n := by omega
      rw [hsum]
      exact hbehind.trans hnext

/-- A product of four and a number of 32 bits fits in a word. -/
lemma checkedMul_of_lt {count : ℕ} (h : count < 2 ^ 32) :
    checkedMul count 4 = some (4 * count) := by
  rw [checkedMul, if_pos (by omega), Nat.mul_comm]

/-- A switch, whose size is announced by its count. -/
lemma switch_mirrors (hposition : c.position = p.offset + 1) (hsize : p.codeSize = c.data.length)
    (hmemory : c.data.length < 2 ^ 64) :
    Mirrors (ReadBehind c) (Decode.declaredOperand p c.rest .switch) (declared p c .switch) := by
  rw [Decode.declaredOperand, declared]
  refine (ensure_mirrors hposition hsize 4).bind fun _ _ h => ?_
  obtain ⟨hfit, rfl⟩ := h
  obtain ⟨c', hread, hbehind⟩ := exists_read .u32 hfit
  have hcount : Bytes.toNatLE (c.rest.take 4) < 2 ^ 32 := Bytes.toNatLE_take_lt 4 c.rest
  have hv : (Cursor.NumberKind.u32.interpret (Bytes.toNatLE (c.rest.take 4))).toNat
      = Bytes.toNatLE (c.rest.take 4) := rfl
  rw [hread, ok_bind]
  dsimp only [Cursor.NumberKind.width] at hbehind ⊢
  rw [hv, checkedMul_of_lt hcount, ← hbehind.rest]
  generalize Bytes.toNatLE (c.rest.take 4) = n at hcount
  dsimp only
  have hposition' : c'.position = p.offset + 5 := by rw [hbehind.position, hposition]
  refine (ensure_mirrors hposition' (by rw [hsize, hbehind.data]) (4 * n)).bind fun _ _ h => ?_
  obtain ⟨hroom, rfl⟩ := h
  -- the targets end in the code, so the sum fits in a word, and four bytes are there for each
  have hfinish : c'.position + 4 * n < 2 ^ 64 := by
    have hle := c'.position_le
    rw [Cursor.remaining] at hroom
    rw [hbehind.data] at hle hroom
    omega
  have hreserve : n ≤ c'.remaining / 4 := by omega
  rw [add, if_pos hfinish, ok_bind, reserve, if_pos hreserve, ok_bind, hposition']
  have hlen : (c'.rest.take (4 * n)).length = 4 * n :=
    List.length_take_of_le (by rwa [length_rest])
  refine (targets_mirrors _ (List.take_prefix _ _) hlen).bind fun ts r h => ?_
  obtain ⟨rfl, hnext⟩ := h
  exact .ok ⟨rfl, hbehind.trans hnext⟩

/-- An operand of a declared shape is read by a cursor as it is cut off. -/
lemma declared_mirrors (hposition : c.position = p.offset + 1) (hsize : p.codeSize = c.data.length)
    (hmemory : c.data.length < 2 ^ 64) (shape : OperandShape) :
    Mirrors (ReadBehind c) (Decode.declaredOperand p c.rest shape) (declared p c shape) := by
  cases shape with
  | none => exact .ok ⟨rfl, rfl, rfl⟩
  | switch => exact switch_mirrors hposition hsize hmemory
  | byte =>
      refine (ensure_mirrors hposition hsize 1).bind fun _ _ h => ?_
      obtain ⟨hfit, rfl⟩ := h
      exact single_mirrors hfit fun c' hbehind => ⟨rfl, hbehind⟩
  | int32 =>
      refine (ensure_mirrors hposition hsize 4).bind fun _ _ h => ?_
      obtain ⟨hfit, rfl⟩ := h
      exact single_mirrors hfit fun c' hbehind =>
        ⟨congrArg Operand.int32 (ofInt_interpret_i32 _), hbehind⟩
  | int64 =>
      refine (ensure_mirrors hposition hsize 8).bind fun _ _ h => ?_
      obtain ⟨hfit, rfl⟩ := h
      exact single_mirrors hfit fun c' hbehind =>
        ⟨congrArg Operand.int64 (ofInt_interpret_i64 _), hbehind⟩
  | token =>
      refine (ensure_mirrors hposition hsize 4).bind fun _ _ h => ?_
      obtain ⟨hfit, rfl⟩ := h
      exact single_mirrors hfit fun c' hbehind => ⟨rfl, hbehind⟩
  | branch =>
      refine (ensure_mirrors hposition hsize 4).bind fun _ _ h => ?_
      obtain ⟨hfit, rfl⟩ := h
      obtain ⟨v, c', hread, hv, hbehind⟩ := exists_read_i32 hfit
      rw [hread, ok_bind]
      dsimp only
      rw [hv, hbehind.position, hposition]
      refine (mirrors_lift _).bind fun t _ ht => ?_
      subst ht
      exact .ok ⟨rfl, hbehind⟩

/-- An operand of an inferred width is read by a cursor as it is cut off. -/
lemma inferred_mirrors (hposition : c.position = p.offset + 1) (hsize : p.codeSize = c.data.length)
    (width : Width) :
    Mirrors (fun operand r => r.1 = operand ∧ Behind c width.size r.2)
      (Decode.inferredOperand p c.rest width) (inferred p c width) := by
  refine (ensure_mirrors hposition hsize width.size).bind fun _ _ h => ?_
  obtain ⟨hfit, rfl⟩ := h
  cases width with
  | zero => exact .ok ⟨rfl, rfl, rfl⟩
  | one => exact single_mirrors hfit fun c' hbehind => ⟨rfl, hbehind⟩
  | four =>
      exact single_mirrors hfit fun c' hbehind =>
        ⟨congrArg Operand.int32 (ofInt_interpret_i32 _), hbehind⟩
  | eight =>
      exact single_mirrors hfit fun c' hbehind =>
        ⟨congrArg Operand.int64 (ofInt_interpret_i64 _), hbehind⟩

end Operands

/-! ### Looking ahead -/

section Lookahead

variable {table : ShapeTable} {memory : Width.Memory} {code : Bytes} {position : ℕ} {c : Cursor}

/-- The size of a known operand is far from outgrowing a word, whatever a switch announces. -/
lemma size_lt_of_knownSize? {opcode : UInt8} {operand : Bytes} {n : ℕ}
    (h : Width.knownSize? table memory opcode operand = some n) : n < 2 ^ 35 := by
  rcases Width.knownSize?_eq_some_iff.mp h with ⟨shape, -, hn⟩ | ⟨count, rest, -, hcount, rfl⟩
    | ⟨width, -, -, rfl⟩
  · cases shape <;> simp [OperandShape.fixedSize?] at hn <;> omega
  · obtain ⟨⟨head, tail⟩, hsplit, hr⟩ := Option.map_eq_some_iff.mp hcount
    obtain ⟨rfl, -⟩ := Prod.mk.inj hr
    have hlt := Bytes.toNatLE_lt head
    rw [(Bytes.split?_eq_some_iff.mp hsplit).2, show Bytes.capacity 4 = 2 ^ 32 from rfl] at hlt
    omega
  · cases width <;> simp [Width.size]

/-- A switch is as large as its count says; the size never outgrows a word. -/
lemma countSize_eq (c : Cursor) :
    countSize c = (Bytes.number? 4 c.rest).map fun (count, _) => 4 + 4 * count := by
  have hwidth : Cursor.NumberKind.u32.width = 4 := rfl
  have hle := c.position_le
  by_cases hfit : c.position + 4 ≤ c.data.length
  · have hcount : Bytes.toNatLE (c.rest.take 4) < 2 ^ 32 := Bytes.toNatLE_take_lt 4 c.rest
    have hcut : Bytes.split? 4 c.rest = some (c.rest.take 4, c.rest.drop 4) :=
      if_pos (by rw [length_rest, Cursor.remaining]; omega)
    rw [countSize, Cursor.number, hwidth, dif_pos hfit, Bytes.number?, hcut]
    change (checkedMul (Bytes.toNatLE (c.rest.take 4)) 4).bind (checkedAdd · 4) = some _
    rw [checkedMul_of_lt hcount, Option.bind_some, checkedAdd, if_pos (by omega), Nat.add_comm]
  · have hcut : Bytes.split? 4 c.rest = none :=
      if_neg (by rw [length_rest, Cursor.remaining]; omega)
    rw [countSize, Cursor.number, hwidth, dif_neg hfit, Bytes.number?, hcut]
    rfl

/-- The size of an operand is looked up inside the code. -/
lemma knownSize_eq (hlt : position < code.length) :
    knownSize table memory code position
      = .ok (Width.knownSize? table memory code[position] (code.drop (position + 1))) := by
  rw [knownSize, List.getElem?_eq_getElem hlt, Width.knownSize?]
  dsimp only
  cases table.get? code[position] with
  | none => rfl
  | some shape =>
      cases shape with
      | switch =>
          have hseek : position + 1 ≤ (Cursor.start code).data.length := hlt
          simp only [Cursor.seek, dif_pos hseek, countSize_eq]
          rfl
      | none | byte | int32 | int64 | token | branch => rfl

/-- The support of a position in the code, counted from the start of the lookahead. -/
lemma support_eq (hmemory : code.length < 2 ^ 64) {left : ℕ} (hleft : left ≤ Width.lookahead)
    (hposition : position ≤ code.length) :
    support table memory code left position
      = .ok (Width.lookahead - left + Width.support table memory left (code.drop position)) := by
  induction left generalizing position with
  | zero => rw [support, Width.support]; rfl
  | succ left ih =>
      rcases Nat.lt_or_eq_of_le hposition with hlt | rfl
      · rw [support, if_neg hlt.ne, knownSize_eq hlt, ok_bind, List.drop_eq_getElem_cons hlt,
          Width.support]
        cases hsize : Width.knownSize? table memory code[position] (code.drop (position + 1)) with
        | none => rfl
        | some size =>
            have hsmall := size_lt_of_knownSize? hsize
            dsimp only
            rw [add, if_pos (by omega), ok_bind, checkedAdd]
            by_cases hfit : position + (1 + size) ≤ code.length
            · have hinside : size ≤ (code.drop (position + 1)).length := by
                rw [List.length_drop]
                omega
              rw [if_pos (by omega), if_pos hinside]
              dsimp only
              rw [if_pos hfit, ih (by omega) hfit, List.drop_drop, Nat.add_assoc position 1 size]
              congr 1
              omega
            · have houtside : ¬ size ≤ (code.drop (position + 1)).length := by
                rw [List.length_drop]
                omega
              rw [if_neg houtside]
              -- whether the sum outgrows a word or not, the operand does not fit
              split_ifs with hword
              · exact if_neg hfit
              · rfl
      · rw [support, if_pos rfl, List.drop_length, Width.support]
        congr 1
        omega

/-- One more candidate is tried as it is with lists. -/
lemma better_eq (hmemory : c.data.length < 2 ^ 64) (best : ℕ × Width) (width : Width) :
    better table memory c best width = .ok (Width.better table memory c.rest best width) := by
  have hle := c.position_le
  rw [better, Width.better, length_rest, Cursor.remaining, checkedAdd]
  by_cases hfit : c.position + width.size ≤ c.data.length
  · rw [if_pos (by omega), if_pos (by omega)]
    dsimp only
    rw [if_pos hfit, support_eq hmemory (Nat.le_refl _) hfit, ok_bind, Nat.sub_self, Nat.zero_add,
      Cursor.rest, List.drop_drop]
    rfl
  · rw [if_neg (by omega : ¬ width.size ≤ c.data.length - c.position)]
    split_ifs with hword
    · exact if_neg hfit
    · rfl

lemma infer_eq (hmemory : c.data.length < 2 ^ 64) :
    infer table memory c = .ok (Width.infer table memory c.rest) := by
  have hfold (ws : List Width) (best : ℕ × Width) : ws.foldlM (better table memory c) best
      = .ok (ws.foldl (Width.better table memory c.rest) best) := by
    induction ws generalizing best with
    | nil => rfl
    | cons w ws ih => rw [List.foldlM_cons, better_eq hmemory, ok_bind, ih, List.foldl_cons]
  rw [infer, hfold, ok_bind, Width.infer]
  rfl

end Lookahead

/-! ### Reading instructions -/

section Instructions

variable {table : ShapeTable} {c : Cursor}

/-- The instruction at a cursor is read with the same widths remembered, and leaves the cursor
behind it. -/
structure ReadAtCursor (c : Cursor) (r : Instruction × Width.Memory)
    (r' : Instruction × Width.Memory × Cursor) : Prop where
  instruction : r'.1 = r.1
  memory : r'.2.1 = r.2
  offset : r.1.offset = c.position
  size_pos : 0 < r.1.size
  behind : Behind c r.1.size r'.2.2

/-- Behind the operand, the cursor has moved by the opcode and the operand. -/
lemma Behind.operand {next behind : Cursor} {n : ℕ} (hnext : Behind c 1 next)
    (h : Behind next n behind) :
    behind.position - c.position = 1 + n ∧ Behind c (1 + n) behind := by
  refine ⟨?_, hnext.trans h⟩
  rw [h.position, hnext.position]
  omega

lemma declaredInstruction_mirrors {next : Cursor} (hnext : Behind c 1 next)
    (hmemory : c.data.length < 2 ^ 64) (opcode : UInt8) (memory : Width.Memory)
    (shape : OperandShape) :
    Mirrors (ReadAtCursor c)
      (Decode.declaredOperand ⟨opcode, c.position, c.data.length⟩ next.rest shape >>= fun r =>
        pure (⟨c.position, 1 + r.2, opcode, r.1, .declared⟩, memory))
      (declared ⟨opcode, c.position, c.data.length⟩ next shape >>= fun r =>
        pure (⟨c.position, r.2.position - c.position, opcode, r.1, .declared⟩, memory, r.2)) := by
  rw [← hnext.data] at hmemory ⊢
  refine (declared_mirrors hnext.position rfl hmemory shape).bind fun r r' h => ?_
  obtain ⟨hoperand, hbehind⟩ := h
  obtain ⟨hsize, hbehind⟩ := hnext.operand hbehind
  rw [hoperand, hsize]
  exact .ok ⟨rfl, rfl, rfl, by dsimp only; omega, hbehind⟩

lemma inferredInstruction_mirrors {next : Cursor} (hnext : Behind c 1 next) (opcode : UInt8)
    (memory : Width.Memory) (width : Width) :
    Mirrors (ReadAtCursor c)
      (Decode.inferredOperand ⟨opcode, c.position, c.data.length⟩ next.rest width >>= fun operand =>
        pure (⟨c.position, 1 + width.size, opcode, operand, .inferred⟩, memory))
      (inferred ⟨opcode, c.position, c.data.length⟩ next width >>= fun r =>
        pure (⟨c.position, r.2.position - c.position, opcode, r.1, .inferred⟩, memory, r.2)) := by
  rw [← hnext.data]
  refine (inferred_mirrors hnext.position rfl width).bind fun operand r h => ?_
  obtain ⟨rfl, hbehind⟩ := h
  obtain ⟨hsize, hbehind⟩ := hnext.operand hbehind
  rw [hsize]
  exact .ok ⟨rfl, rfl, rfl, by dsimp only; omega, hbehind⟩

/-- The opcode at a cursor is read. -/
lemma exists_read_opcode (hlt : c.position < c.data.length) :
    ∃ v next, read c .u8 = .ok (v, next) ∧ UInt8.ofNat v.toNat = c.data[c.position]
      ∧ Behind c 1 next := by
  have hroom : 1 ≤ c.remaining := by
    rw [Cursor.remaining]
    omega
  obtain ⟨next, hread, hnext⟩ := exists_read .u8 hroom
  refine ⟨_, next, hread, ?_, hnext⟩
  rw [Cursor.rest, List.drop_eq_getElem_cons hlt]
  change UInt8.ofNat (Bytes.toNatLE [c.data[c.position]]) = c.data[c.position]
  simp [Bytes.toNatLE]

/-- An instruction is read by a cursor as it is cut off. -/
lemma instruction_mirrors (memory : Width.Memory) (hmemory : c.data.length < 2 ^ 64)
    (hlt : c.position < c.data.length) :
    Mirrors (ReadAtCursor c)
      (Decode.instruction table memory ⟨c.data[c.position], c.position, c.data.length⟩
        (c.data.drop (c.position + 1)))
      (instruction table memory c) := by
  obtain ⟨v, next, hread, hopcode, hnext⟩ := exists_read_opcode hlt
  have hrest : c.data.drop (c.position + 1) = next.rest := by
    rw [hnext.rest, Cursor.rest, List.drop_drop]
  rw [instruction, hread, ok_bind, hrest, Decode.instruction]
  dsimp only
  rw [hopcode]
  generalize c.data[c.position] = opcode
  cases table.get? opcode with
  | some shape => exact declaredInstruction_mirrors hnext hmemory opcode memory shape
  | none =>
      cases memory.lookup opcode with
      | some width => exact inferredInstruction_mirrors hnext opcode memory width
      | none =>
          dsimp only
          rw [infer_eq (by rwa [hnext.data])]
          exact inferredInstruction_mirrors hnext opcode _ _

/-- The pass over the code by a cursor reads what the pass over the bytes reads. -/
lemma scan_mirrors (memory : Width.Memory) (hmemory : c.data.length < 2 ^ 64) :
    Mirrors (fun is js => js = is)
      (Decode.scan table c.data.length memory c.position c.rest) (scan table memory c) := by
  -- each round leaves fewer bytes, since an instruction takes its opcode at least
  induction hn : c.remaining using Nat.strong_induction_on generalizing c memory with
  | _ n ih =>
      rw [scan]
      by_cases hlt : c.position < c.data.length
      · rw [if_pos (by rw [Cursor.hasMore, decide_eq_true_eq]; exact hlt), Cursor.rest,
          List.drop_eq_getElem_cons hlt, Decode.scan]
        refine (instruction_mirrors memory hmemory hlt).bind fun r r' h => ?_
        obtain ⟨i, memory'⟩ := r
        obtain ⟨i', memory'', behind⟩ := r'
        obtain ⟨rfl, rfl, hoffset, hpos, hbehind⟩ := h
        dsimp only at hoffset hpos hbehind ⊢
        have hless : behind.remaining < c.remaining := by
          rw [Cursor.remaining, Cursor.remaining, hbehind.data, hbehind.position]
          omega
        have hrest : (c.data.drop (c.position + 1)).drop (i'.size - 1) = behind.rest := by
          rw [hbehind.rest, Cursor.rest, List.drop_drop, List.drop_drop]
          congr 1
          omega
        have hfinish : i'.finish = behind.position := by
          rw [Instruction.finish, hoffset, hbehind.position]
        rw [dif_pos hless, hrest, hfinish, ← hbehind.data]
        refine (ih _ (hn ▸ hless) memory'' (by rwa [hbehind.data]) rfl).bind fun is js h => ?_
        subst h
        exact .ok rfl
      · have hend : c.rest = [] := List.drop_eq_nil_of_le (Nat.le_of_not_lt hlt)
        rw [if_neg (by rw [Cursor.hasMore, decide_eq_true_eq]; exact hlt), hend, Decode.scan]
        exact .ok rfl

/-- The guarded decoder decodes as the decoder does. -/
lemma decode_eq_lift (table : ShapeTable) {code : Bytes} (hmemory : code.length < 2 ^ 64) :
    decode table code = lift (decodeCode table code) := by
  have hscan : Mirrors (fun is js => js = is) (Decode.scan table code.length [] 0 code)
      (scan table [] (.start code)) := scan_mirrors (c := .start code) [] hmemory
  refine Mirrors.eq_lift (hscan.bind fun is js h => ?_)
  subst h
  exact mirrors_lift _

end Instructions

end Guarded

/-- **Decoding never looks outside the code.** Whatever the bytes, code is decoded or found
malformed. A decoder that reads it by a cursor, looks ahead by indices and computes in 64-bit words
comes to the same result, on any code that such words can address: none of its reads fails, no index
lies outside the code, no size outgrows its word, it never sets room aside for more targets than a
quarter of the bytes that are left, and each of its rounds reads something. In particular, the
checked size of a switch exists for every count of 32 bits. -/
theorem decodeCode_in_bounds (table : ShapeTable) (code : Bytes) :
    ((∃ is, decodeCode table code = .ok is)
      ∨ ∃ fault, decodeCode table code = .error (.format fault))
    ∧ (code.length < 2 ^ 64 →
      Guarded.decode table code = Guarded.lift (decodeCode table code)
      ∧ ∀ stop, Guarded.decode table code = .error stop → ∃ fault, stop = .failed (.format fault))
    ∧ ∀ count < 2 ^ 32, Guarded.checkedMul count 4 = some (4 * count)
      ∧ Guarded.checkedAdd (4 * count) 4 = some (4 * count + 4) := by
  have hends : (∃ is, decodeCode table code = .ok is)
      ∨ ∃ fault, decodeCode table code = .error (.format fault) := by
    cases h : decodeCode table code with
    | ok is => exact .inl ⟨is, rfl⟩
    | error e =>
        obtain ⟨fault, rfl⟩ := decodeCode_faulty code e h
        exact .inr ⟨fault, rfl⟩
  refine ⟨hends, fun hmemory => ?_, fun count hcount => ⟨Guarded.checkedMul_of_lt hcount, ?_⟩⟩
  · rw [Guarded.decode_eq_lift table hmemory]
    refine ⟨rfl, fun stop hstop => ?_⟩
    rcases hends with ⟨is, h⟩ | ⟨fault, h⟩
    · rw [h] at hstop
      cases hstop
    · rw [h] at hstop
      cases hstop
      exact ⟨fault, rfl⟩
  · exact if_pos (by omega)

/-- A switch that announces as many targets as 32 bits can count, with one byte behind the count:
the size it asks for is computed and refused. -/
theorem decodeCode_in_bounds_switch :
    (loopTable.get? 0x40 = some .switch)
      ∧ decodeCode loopTable [0x40, 0xFF, 0xFF, 0xFF, 0xFF, 0]
        = .error (.format (.operandOverrun 0x40 0 (4 * 0xFFFFFFFF) 1))
      ∧ Guarded.decode loopTable [0x40, 0xFF, 0xFF, 0xFF, 0xFF, 0]
        = .error (.failed (.format (.operandOverrun 0x40 0 (4 * 0xFFFFFFFF) 1)))
      ∧ Guarded.checkedMul 0xFFFFFFFF 4 = some (4 * 0xFFFFFFFF) := by
  have hcode : decodeCode loopTable [0x40, 0xFF, 0xFF, 0xFF, 0xFF, 0]
      = .error (.format (.operandOverrun 0x40 0 (4 * 0xFFFFFFFF) 1)) := by decide +kernel
  obtain ⟨-, hguarded, hsizes⟩ :=
    decodeCode_in_bounds loopTable [0x40, 0xFF, 0xFF, 0xFF, 0xFF, 0]
  refine ⟨by decide +kernel, hcode, ?_, (hsizes 0xFFFFFFFF (by decide)).1⟩
  rw [(hguarded (by decide)).1, hcode]
  rfl

end OpcodeRecovery
