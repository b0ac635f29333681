import GameArchive.Proofs.Codec.BackCopy
import GameArchive.Proofs.Codec.Ykcmp
import Mathlib.Data.List.Basic
import Mathlib.Tactic.SplitIfs
/-!
# YKCMP instructions

An opcode says how many operands follow it, and with them makes up one instruction. So every input
is in one way a list of instructions, the last of which may be cut short. Unpacking carries them
out one after another on the list of the bytes so far; it is refused where an instruction cannot
be carried out, and where one is cut short.
-/
namespace GameArchive.Codec.Ykcmp

namespace Instruction

/-- Whether an instruction has an encoding: its numbers are in the ranges that the bits hold. -/
def IsEncodable : Instruction → Prop
  | .absolute source length => source < 0x100000000 ∧ length < 0x10000
  | .literal bytes => 1 ≤ bytes.length ∧ bytes.length ≤ 127
  | .short distance length => (1 ≤ distance ∧ distance ≤ 16) ∧ 1 ≤ length ∧ length ≤ 4
  | .medium distance length => (1 ≤ distance ∧ distance ≤ 256) ∧ 2 ≤ length ∧ length ≤ 33
  | .long distance length => (1 ≤ distance ∧ distance ≤ 4096) ∧ 3 ≤ length ∧ length ≤ 514

instance (i : Instruction) : Decidable i.IsEncodable := by
  cases i <;> exact inferInstanceAs (Decidable (_ ∧ _))

/-- The bytes so far with those of an instruction behind them. -/
def appendTo (out : List UInt8) : Instruction → List UInt8
  | .absolute source length => copyEach out source length
  | .literal bytes => out ++ bytes
  | .short distance length
  | .medium distance length
  | .long distance length => copyEach out (out.length - distance) length

/-- Whether an instruction can be carried out behind `size` bytes when there may be `limit`. -/
def IsPossible (limit size : Nat) : Instruction → Prop
  | .absolute source length => 0 < length → source < size ∧ size + length ≤ limit
  | .literal bytes => size + bytes.length ≤ limit
  | .short distance length
  | .medium distance length
  | .long distance length => distance ≤ size ∧ size + length ≤ limit

instance (limit size : Nat) (i : Instruction) : Decidable (i.IsPossible limit size) := by
  cases i with
  | absolute source length => exact inferInstanceAs (Decidable (_ → _))
  | literal bytes => exact inferInstanceAs (Decidable (_ ≤ _))
  | short distance length => exact inferInstanceAs (Decidable (_ ∧ _))
  | medium distance length => exact inferInstanceAs (Decidable (_ ∧ _))
  | long distance length => exact inferInstanceAs (Decidable (_ ∧ _))

end Instruction

/-- The bytes of instructions. -/
def encodeAll (instructions : List Instruction) : List UInt8 :=
  instructions.flatMap Instruction.encode

/-- The bytes that instructions leave behind `out`. -/
def interpret (out : List UInt8) (instructions : List Instruction) : List UInt8 :=
  instructions.foldl Instruction.appendTo out

/-- Whether instructions can be carried out behind `out` one after another when there may be `limit`
bytes. -/
def ArePossible (limit : Nat) : (out : List UInt8) → List Instruction → Prop
  | _, [] => True
  | out, i :: rest => i.IsPossible limit out.length ∧ ArePossible limit (i.appendTo out) rest

instance decidableArePossible (limit : Nat) : (out : List UInt8) →
    (instructions : List Instruction) → Decidable (ArePossible limit out instructions)
  | _, [] => inferInstanceAs (Decidable True)
  | out, i :: rest =>
    have := decidableArePossible limit (i.appendTo out) rest
    inferInstanceAs (Decidable (_ ∧ _))

/-- Whether bytes are the beginning of an instruction that goes on behind them. -/
def IsCutShort (bytes : List UInt8) : Prop :=
  ∃ (i : Instruction) (rest : List UInt8), i.IsEncodable ∧ bytes ≠ [] ∧ rest ≠ [] ∧
    i.encode = bytes ++ rest

theorem ofNat_eq_of_mod {n : Nat} {b : UInt8} (h : n % 256 = b.toNat) : UInt8.ofNat n = b := by
  rw [← UInt8.toNat_inj, UInt8.toNat_ofNat', h]

theorem toNat_ofNat_of_lt {n : Nat} (h : n < 256) : (UInt8.ofNat n).toNat = n := by
  rw [UInt8.toNat_ofNat', Nat.mod_eq_of_lt h]

namespace Instruction

theorem operandCount_eq (opcode : UInt8) : operandCount opcode =
    if opcode.toNat = 0 then 6 else if opcode.toNat < 0x80 then opcode.toNat
    else if opcode.toNat < 0xC0 then 0 else if opcode.toNat < 0xE0 then 1 else 2 := by
  simp only [operandCount, UInt8.lt_iff_toNat_lt, ← UInt8.toNat_inj]
  rfl

theorem ofOperands_eq (opcode : UInt8) (operands : List UInt8) : ofOperands opcode operands =
    if opcode.toNat = 0 then
      .absolute (ofLittleEndian (operands.take 4)) (ofLittleEndian (operands.drop 4))
    else if opcode.toNat < 0x80 then .literal operands
    else if opcode.toNat < 0xC0 then .short (opcode.toNat % 16 + 1) (opcode.toNat / 16 - 8 + 1)
    else if opcode.toNat < 0xE0 then
      .medium ((operands.map UInt8.toNat).getD 0 0 + 1) (opcode.toNat - 0xC0 + 2)
    else .long (256 * ((operands.map UInt8.toNat).getD 0 0 % 16) +
        (operands.map UInt8.toNat).getD 1 0 + 1)
      (16 * (opcode.toNat - 0xE0) + (operands.map UInt8.toNat).getD 0 0 / 16 + 3) := by
  simp only [ofOperands, UInt8.lt_iff_toNat_lt, ← UInt8.toNat_inj]
  rfl

/-- The encoding of an instruction is an opcode with as many operands as it asks for, and from
these the instruction is told. -/
theorem exists_operands {i : Instruction} (hi : i.IsEncodable) :
    ∃ opcode operands, i.encode = opcode :: operands ∧
      operands.length = operandCount opcode ∧ ofOperands opcode operands = i := by
  cases i with
  | absolute source length =>
    obtain ⟨hsource, hlength⟩ := hi
    refine ⟨0, toLittleEndian 4 source ++ toLittleEndian 2 length, rfl, ?_, ?_⟩
    · simp [operandCount]
    · rw [ofOperands_eq, if_pos UInt8.toNat_zero,
        List.take_left' (length_toLittleEndian 4 source),
        List.drop_left' (length_toLittleEndian 4 source), ofLittleEndian_toLittleEndian,
        ofLittleEndian_toLittleEndian, Nat.mod_eq_of_lt (show source < numberBound 4 from hsource),
        Nat.mod_eq_of_lt (show length < numberBound 2 from hlength)]
  | literal bytes =>
    obtain ⟨hpos, hmax⟩ := hi
    have hcode := toNat_ofNat_of_lt (n := bytes.length) (by omega)
    refine ⟨UInt8.ofNat bytes.length, bytes, rfl, ?_, ?_⟩
    · rw [operandCount_eq, hcode, if_neg (by omega), if_pos (by omega)]
    · rw [ofOperands_eq, hcode, if_neg (by omega), if_pos (by omega)]
  | short distance length =>
    obtain ⟨hdistance, hlength⟩ := hi
    have hcode := toNat_ofNat_of_lt (n := 0x80 + 16 * (length - 1) + (distance - 1)) (by omega)
    refine ⟨_, [], rfl, ?_, ?_⟩
    · rw [operandCount_eq, hcode, if_neg (by omega), if_neg (by omega), if_pos (by omega)]
      rfl
    · rw [ofOperands_eq, hcode, if_neg (by omega), if_neg (by omega), if_pos (by omega)]
      congr 1 <;> omega
  | medium distance length =>
    obtain ⟨hdistance, hlength⟩ := hi
    have hcode := toNat_ofNat_of_lt (n := 0xC0 + (length - 2)) (by omega)
    have hoperand := toNat_ofNat_of_lt (n := distance - 1) (by omega)
    refine ⟨_, _, rfl, ?_, ?_⟩
    · rw [operandCount_eq, hcode, if_neg (by omega), if_neg (by omega), if_neg (by omega),
        if_pos (by omega)]
      rfl
    · rw [ofOperands_eq, hcode, if_neg (by omega), if_neg (by omega), if_neg (by omega),
        if_pos (by omega)]
      simp only [List.map_cons, List.getD_cons_zero, hoperand]
      congr 1 <;> omega
  | long distance length =>
    obtain ⟨hdistance, hlength⟩ := hi
    have hcode := toNat_ofNat_of_lt (n := 0xE0 + (length - 3) / 16) (by omega)
    have hfirst := toNat_ofNat_of_lt
      (n := 16 * ((length - 3) % 16) + (distance - 1) / 256) (by omega)
    have hsecond : (UInt8.ofNat (distance - 1)).toNat = (distance - 1) % 256 :=
      UInt8.toNat_ofNat'
    refine ⟨_, _, rfl, ?_, ?_⟩
    · rw [operandCount_eq, hcode, if_neg (by omega), if_neg (by omega), if_neg (by omega),
        if_neg (by omega)]
      rfl
    · rw [ofOperands_eq, hcode, if_neg (by omega), if_neg (by omega), if_neg (by omega),
        if_neg (by omega)]
      simp only [List.map_cons, List.getD_cons_zero, List.getD_cons_succ, hfirst, hsecond]
      congr 1 <;> omega

/-- Every opcode with as many operands as it asks for is the encoding of an instruction. -/
theorem encode_ofOperands {opcode : UInt8} {operands : List UInt8}
    (h : operands.length = operandCount opcode) :
    (ofOperands opcode operands).IsEncodable ∧
      (ofOperands opcode operands).encode = opcode :: operands := by
  have hopcode := opcode.toNat_lt
  rw [operandCount_eq] at h
  rw [ofOperands_eq]
  split_ifs at h ⊢ with hzero hliteral hshort hmedium
  · have hsource := ofLittleEndian_lt (operands.take 4)
    have hlength := ofLittleEndian_lt (operands.drop 4)
    have htake : (operands.take 4).length = 4 := by rw [List.length_take]; omega
    have hdrop : (operands.drop 4).length = 2 := by rw [List.length_drop]; omega
    have hfirst := toLittleEndian_ofLittleEndian (operands.take 4)
    have hsecond := toLittleEndian_ofLittleEndian (operands.drop 4)
    rw [htake] at hsource hfirst
    rw [hdrop] at hlength hsecond
    refine ⟨⟨hsource, hlength⟩, ?_⟩
    have hcode : opcode = 0 := UInt8.toNat_inj.mp hzero
    rw [encode, hfirst, hsecond, List.take_append_drop, hcode]
  · refine ⟨⟨by omega, by omega⟩, ?_⟩
    rw [encode, h, UInt8.ofNat_toNat]
  · obtain rfl := List.length_eq_zero_iff.mp h
    refine ⟨⟨⟨by omega, by omega⟩, by omega, by omega⟩, ?_⟩
    rw [encode, ofNat_eq_of_mod (b := opcode) (by omega)]
  · obtain ⟨x, rfl⟩ := List.length_eq_one_iff.mp h
    have hx := x.toNat_lt
    simp only [List.map_cons, List.getD_cons_zero]
    refine ⟨⟨⟨by omega, by omega⟩, by omega, by omega⟩, ?_⟩
    rw [encode, ofNat_eq_of_mod (b := opcode) (by omega), ofNat_eq_of_mod (b := x) (by omega)]
  · obtain ⟨x, y, rfl⟩ := List.length_eq_two.mp h
    have hx := x.toNat_lt
    have hy := y.toNat_lt
    simp only [List.map_cons, List.getD_cons_zero, List.getD_cons_succ]
    refine ⟨⟨⟨by omega, by omega⟩, by omega, by omega⟩, ?_⟩
    rw [encode, ofNat_eq_of_mod (b := opcode) (by omega), ofNat_eq_of_mod (b := x) (by omega),
      ofNat_eq_of_mod (b := y) (by omega)]

/-- No encoding of an instruction is the beginning of another one. -/
theorem encode_append_inj {i j : Instruction} {s t : List UInt8} (hi : i.IsEncodable)
    (hj : j.IsEncodable) (h : i.encode ++ s = j.encode ++ t) : i = j ∧ s = t := by
  obtain ⟨opcode, operands, hencode, hcount, rfl⟩ := exists_operands hi
  obtain ⟨opcode', operands', hencode', hcount', rfl⟩ := exists_operands hj
  rw [hencode, hencode', List.cons_append, List.cons_append, List.cons.injEq] at h
  obtain ⟨rfl, h⟩ := h
  obtain ⟨rfl, rfl⟩ := List.append_inj h (hcount.trans hcount'.symm)
  exact ⟨rfl, rfl⟩

variable {limit : Nat} {out : List UInt8} {i : Instruction}

theorem execute_eq_appendTo (hi : i.IsEncodable) (h : i.IsPossible limit out.length) :
    execute limit out.toArray i = .ok (i.appendTo out).toArray := by
  cases i with
  | absolute source length => exact copyFrom_eq_copyEach h
  | literal bytes =>
    unfold IsPossible at h
    rw [execute, append, if_neg (by simp only [List.size_toArray]; omega), List.append_toArray,
      appendTo]
  | short distance length
  | medium distance length
  | long distance length =>
    unfold IsEncodable at hi
    exact copyBack_eq_copyEach ⟨h.1, fun _ => ⟨by omega, h.2⟩⟩

theorem isOutOfBounds_execute (hi : i.IsEncodable) (h : ¬ i.IsPossible limit out.length) :
    IsOutOfBounds (execute limit out.toArray i) := by
  cases i with
  | absolute source length => exact isOutOfBounds_copyFrom h
  | literal bytes =>
    unfold IsPossible at h
    rw [execute, append, if_pos (by simp only [List.size_toArray]; omega)]
    exact ⟨_, _, _, rfl⟩
  | short distance length
  | medium distance length
  | long distance length =>
    unfold IsEncodable at hi
    apply isOutOfBounds_copyBack
    intro hback
    exact h ⟨hback.1, (hback.2 (by omega)).2⟩

end Instruction

theorem isCutShort_iff {bytes : List UInt8} : IsCutShort bytes ↔
    ∃ opcode operands, bytes = opcode :: operands ∧
      operands.length < Instruction.operandCount opcode := by
  constructor
  · rintro ⟨i, rest, hi, hbytes, hrest, hencode⟩
    obtain ⟨opcode, operands, heq, hcount, -⟩ := Instruction.exists_operands hi
    cases bytes with
    | nil => exact absurd rfl hbytes
    | cons b bytes =>
      rw [heq, List.cons_append, List.cons.injEq] at hencode
      obtain ⟨rfl, rfl⟩ := hencode
      have hpos := List.length_pos_iff.mpr hrest
      rw [List.length_append] at hcount
      exact ⟨_, _, rfl, by omega⟩
  · rintro ⟨opcode, operands, rfl, hlt⟩
    -- Zero bytes complete the operands.
    let missing := Instruction.operandCount opcode - operands.length
    have hcount : (operands ++ List.replicate missing 0).length =
        Instruction.operandCount opcode := by
      rw [List.length_append, List.length_replicate]
      omega
    obtain ⟨hi, hencode⟩ := Instruction.encode_ofOperands hcount
    refine ⟨_, List.replicate missing 0, hi, List.cons_ne_nil _ _, ?_, hencode⟩
    rw [Ne, List.replicate_eq_nil_iff]
    omega

theorem not_isCutShort_encode_append {i : Instruction} (hi : i.IsEncodable) (rest : List UInt8) :
    ¬ IsCutShort (i.encode ++ rest) := by
  intro hcut
  obtain ⟨opcode, operands, hencode, hcount, -⟩ := Instruction.exists_operands hi
  obtain ⟨opcode', operands', heq, hlt⟩ := isCutShort_iff.mp hcut
  rw [hencode, List.cons_append, List.cons.injEq] at heq
  obtain ⟨rfl, rfl⟩ := heq
  rw [List.length_append] at hlt
  omega

/-- Whether bytes are those of some instructions, all complete but perhaps one behind them. -/
structure Splits (bytes : List UInt8) (instructions : List Instruction) (tail : List UInt8) :
    Prop where
  encodable : ∀ i ∈ instructions, i.IsEncodable
  tail_cut : tail = [] ∨ IsCutShort tail
  bytes_eq : bytes = encodeAll instructions ++ tail

theorem exists_splits (bytes : List UInt8) : ∃ instructions tail, Splits bytes instructions tail := by
  cases bytes with
  | nil => exact ⟨[], [], fun i hi => absurd hi List.not_mem_nil, Or.inl rfl, rfl⟩
  | cons opcode rest =>
    by_cases hcut : rest.length < Instruction.operandCount opcode
    · exact ⟨[], opcode :: rest, fun i hi => absurd hi List.not_mem_nil,
        Or.inr (isCutShort_iff.mpr ⟨opcode, rest, rfl, hcut⟩), rfl⟩
    · have hcount : (rest.take (Instruction.operandCount opcode)).length =
          Instruction.operandCount opcode := by
        rw [List.length_take]
        omega
      obtain ⟨hi, hencode⟩ := Instruction.encode_ofOperands hcount
      obtain ⟨instructions, tail, hencodable, htail, hrest⟩ :=
        exists_splits (rest.drop (Instruction.operandCount opcode))
      refine ⟨_ :: instructions, tail, List.forall_mem_cons.mpr ⟨hi, hencodable⟩, htail, ?_⟩
      rw [encodeAll, List.flatMap_cons, hencode, List.append_assoc, ← encodeAll, ← hrest,
        List.cons_append, List.take_append_drop]
termination_by bytes.length
decreasing_by simp only [List.length_drop, List.length_cons]; omega

/-- Bytes split in one way only. -/
theorem Splits.unique {bytes tail tail' : List UInt8} {instructions instructions' : List Instruction}
    (h : Splits bytes instructions tail) (h' : Splits bytes instructions' tail') :
    instructions = instructions' ∧ tail = tail' := by
  obtain ⟨hencodable, htail, rfl⟩ := h
  obtain ⟨hencodable', htail', heq⟩ := h'
  have hnotail : ∀ {i : Instruction} {rest t : List UInt8}, i.IsEncodable → t = [] ∨ IsCutShort t →
      t ≠ i.encode ++ rest := by
    rintro i rest t hi ht rfl
    rcases ht with hnil | hcut
    · obtain ⟨opcode, operands, hencode, -⟩ := Instruction.exists_operands hi
      rw [hencode] at hnil
      exact List.cons_ne_nil _ _ hnil
    · exact not_isCutShort_encode_append hi rest hcut
  induction instructions generalizing instructions' with
  | nil =>
    cases instructions' with
    | nil => exact ⟨rfl, heq⟩
    | cons j js =>
      rw [encodeAll, encodeAll, List.flatMap_cons, List.append_assoc] at heq
      exact absurd heq (hnotail (hencodable' j List.mem_cons_self) htail)
  | cons i is ih =>
    cases instructions' with
    | nil =>
      rw [encodeAll, encodeAll, List.flatMap_cons, List.append_assoc] at heq
      exact absurd heq.symm (hnotail (hencodable i List.mem_cons_self) htail')
    | cons j js =>
      rw [encodeAll, encodeAll, List.flatMap_cons, List.flatMap_cons, List.append_assoc,
        List.append_assoc] at heq
      obtain ⟨rfl, hrest⟩ := Instruction.encode_append_inj (hencodable i List.mem_cons_self)
        (hencodable' j List.mem_cons_self) heq
      obtain ⟨rfl, rfl⟩ := ih (fun k hk => hencodable k (List.mem_cons_of_mem _ hk))
        (fun k hk => hencodable' k (List.mem_cons_of_mem _ hk)) hrest
      exact ⟨rfl, rfl⟩

section Run

variable {limit : Nat} {out : List UInt8} {instructions : List Instruction} (inputEnd : Nat)
  (rest : List UInt8)

/-- Where an instruction stands, running the input is carrying it out and running the rest. -/
theorem run_encode_append {i : Instruction} {out : Bytes} (hi : i.IsEncodable) :
    run limit inputEnd out (i.encode ++ rest) =
      (Instruction.execute limit out i).bind fun out => run limit inputEnd out rest := by
  obtain ⟨opcode, operands, hencode, hcount, rfl⟩ := Instruction.exists_operands hi
  rw [hencode, List.cons_append, run]
  simp only [List.take_left' hcount, List.drop_left' hcount, hcount, Nat.lt_irrefl, if_false]
  cases Instruction.execute limit out (Instruction.ofOperands opcode operands) <;> rfl

/-- Instructions that can be carried out leave what the list interpreter does. -/
theorem run_of_arePossible (hencodable : ∀ i ∈ instructions, i.IsEncodable)
    (h : ArePossible limit out instructions) :
    run limit inputEnd out.toArray (encodeAll instructions ++ rest) =
      run limit inputEnd (interpret out instructions).toArray rest := by
  induction instructions generalizing out with
  | nil => rfl
  | cons i is ih =>
    have hi := hencodable i List.mem_cons_self
    rw [encodeAll, List.flatMap_cons, List.append_assoc, run_encode_append _ _ hi,
      Instruction.execute_eq_appendTo hi h.1, ← encodeAll]
    exact ih (fun j hj => hencodable j (List.mem_cons_of_mem _ hj)) h.2

/-- The first instruction that cannot be carried out stops the run. -/
theorem isOutOfBounds_run (hencodable : ∀ i ∈ instructions, i.IsEncodable)
    (h : ¬ ArePossible limit out instructions) :
    IsOutOfBounds (run limit inputEnd out.toArray (encodeAll instructions ++ rest)) := by
  induction instructions generalizing out with
  | nil => exact absurd trivial h
  | cons i is ih =>
    have hi := hencodable i List.mem_cons_self
    rw [encodeAll, List.flatMap_cons, List.append_assoc, run_encode_append _ _ hi, ← encodeAll]
    by_cases hpossible : i.IsPossible limit out.length
    · rw [Instruction.execute_eq_appendTo hi hpossible]
      exact ih (fun j hj => hencodable j (List.mem_cons_of_mem _ hj))
        fun hrest => h ⟨hpossible, hrest⟩
    · exact isOutOfBounds_bind (Instruction.isOutOfBounds_execute hi hpossible)

theorem isOutOfBounds_run_of_isCutShort {out : Bytes} {tail : List UInt8} (h : IsCutShort tail) :
    IsOutOfBounds (run limit inputEnd out tail) := by
  obtain ⟨opcode, operands, rfl, hlt⟩ := isCutShort_iff.mp h
  rw [run, List.take_of_length_le (Nat.le_of_lt hlt), if_pos hlt, truncated]
  split <;> exact ⟨_, _, _, rfl⟩

end Run

/-- A stream with `body` behind a header that states `size` bytes of output. -/
def stream (size : Nat) (body : List UInt8) : Bytes :=
  ((Header.mk (headerSize + body.length) size).toBytes ++ body).toArray

theorem decompress_stream {size : Nat} {body : List UInt8} (hbody : headerSize + body.length < sizeLimit)
    (hsize : size < sizeLimit) : decompress (stream size body) =
      (run size (headerSize + body.length) #[] body).map (·.padTo size) := by
  have hdata : (stream size body).toList =
      (Header.mk (headerSize + body.length) size).toBytes ++ body ++ [] := by
    rw [stream, List.append_nil]
  exact decompress_of_header [] hdata rfl hbody hsize

theorem length_interpret_le {size : Nat} {out : List UInt8} {instructions : List Instruction}
    (h : ArePossible size out instructions) (hout : out.length ≤ size) :
    (interpret out instructions).length ≤ size := by
  induction instructions generalizing out with
  | nil => exact hout
  | cons i is ih =>
    refine ih h.2 ?_
    have hpossible := h.1
    cases i with
    | absolute source length =>
      rw [Instruction.appendTo, length_copyEach]
      rcases Nat.eq_zero_or_pos length with rfl | hpos
      · exact hout
      · exact (hpossible hpos).2
    | literal bytes => rw [Instruction.appendTo, List.length_append]; exact hpossible
    | short distance length
    | medium distance length
    | long distance length => rw [Instruction.appendTo, length_copyEach]; exact hpossible.2

/-- A stream of instructions unpacks to what these leave one after another, filled up with zero
bytes, if all can be carried out within the size stated, and is refused otherwise. Every input is
in one way instructions with perhaps one behind them that is cut short, and then it is refused. -/
theorem decompress_stream_interprets :
    (∀ (instructions : List Instruction) (size : Nat), (∀ i ∈ instructions, i.IsEncodable) →
      headerSize + (encodeAll instructions).length < sizeLimit → size < sizeLimit →
      (ArePossible size [] instructions →
        (interpret [] instructions).length ≤ size ∧
        decompress (stream size (encodeAll instructions)) = .ok (interpret [] instructions ++
          List.replicate (size - (interpret [] instructions).length) 0).toArray) ∧
      (¬ ArePossible size [] instructions →
        IsOutOfBounds (decompress (stream size (encodeAll instructions))))) ∧
    (∀ body : List UInt8,
      ∃! split : List Instruction × List UInt8, Splits body split.1 split.2) ∧
    (∀ (body : List UInt8) (instructions : List Instruction) (tail : List UInt8) (size : Nat),
      Splits body instructions tail → tail ≠ [] → headerSize + body.length < sizeLimit →
      size < sizeLimit → IsOutOfBounds (decompress (stream size body))) := by
  refine ⟨?_, ?_, ?_⟩
  · intro instructions size hencodable hbody hsize
    rw [decompress_stream hbody hsize]
    constructor
    · intro hpossible
      have hrun := run_of_arePossible (headerSize + (encodeAll instructions).length) []
        hencodable hpossible
      rw [List.append_nil] at hrun
      refine ⟨length_interpret_le hpossible (Nat.zero_le size), ?_⟩
      rw [hrun, run, Except.map, Bytes.padTo_toArray]
    · intro himpossible
      have hrun := isOutOfBounds_run (headerSize + (encodeAll instructions).length) []
        hencodable himpossible
      rw [List.append_nil] at hrun
      exact isOutOfBounds_map hrun
  · intro body
    obtain ⟨instructions, tail, hsplits⟩ := exists_splits body
    refine ⟨(instructions, tail), hsplits, ?_⟩
    rintro ⟨instructions', tail'⟩ hsplits'
    obtain ⟨rfl, rfl⟩ := hsplits.unique hsplits'
    rfl
  · intro body instructions tail size hsplits htail hbody hsize
    rw [decompress_stream hbody hsize]
    obtain ⟨hencodable, hcut, rfl⟩ := hsplits
    apply isOutOfBounds_map
    by_cases hpossible : ArePossible size [] instructions
    · rw [run_of_arePossible _ _ hencodable hpossible]
      exact isOutOfBounds_run_of_isCutShort _ (hcut.resolve_left htail)
    · exact isOutOfBounds_run _ _ hencodable hpossible

/-- Some bytes, six from two back, one from the start of the output, and nothing from beyond it. -/
def overlappingCopies : List Instruction :=
  [.literal [0x61, 0x62], .medium 2 6, .absolute 0 1, .absolute 99 0]

theorem decompress_stream_interprets_overlappingCopies :
    decompress (stream 11 (encodeAll overlappingCopies)) =
      .ok #[0x61, 0x62, 0x61, 0x62, 0x61, 0x62, 0x61, 0x62, 0x61, 0, 0] ∧
    IsOutOfBounds (decompress (stream 8 (encodeAll overlappingCopies))) ∧
    IsOutOfBounds (decompress (stream 11 (encodeAll overlappingCopies ++ [0xE0, 0x00]))) := by
  obtain ⟨hcomplete, -, hcut⟩ := decompress_stream_interprets
  have hencodable : ∀ i ∈ overlappingCopies, i.IsEncodable := by decide
  refine ⟨?_, ?_, ?_⟩
  · exact ((hcomplete overlappingCopies 11 hencodable (by decide) (by decide)).1 (by decide)).2
  · exact (hcomplete overlappingCopies 8 hencodable (by decide) (by decide)).2 (by decide)
  · refine hcut _ overlappingCopies [0xE0, 0x00] 11 ⟨hencodable, Or.inr ?_, rfl⟩
      (List.cons_ne_nil _ _) (by decide) (by decide)
    exact isCutShort_iff.mpr ⟨0xE0, [0x00], rfl, by decide⟩

end GameArchive.Codec.Ykcmp
