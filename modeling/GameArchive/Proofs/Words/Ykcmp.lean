import GameArchive.Proofs.Codec.Instructions
import GameArchive.Proofs.Words.Codec
/-!
# YKCMP streams on words

An instruction is fetched and then carried out. Its operands are looked for at places that are
computed from where its opcode stands, and where it ends the next one starts; its numbers are those
of an encodable instruction. So every sum is bounded by the end of the input or by the output.
-/
namespace GameArchive.Codec.Ykcmp

variable {data input : Bytes} {offset limit start read : Nat}

/-- `Header.parse` on words. -/
def Header.parseOnWords (data : Bytes) (offset : Nat) : OnWords Header := do
  data.expectMagic offset magic
  let ⟨reservedAt, _⟩ ← Word.add offset 0x08
  let reserved ← data.word reservedAt 4
  if reserved ≠ reservedValue then throw (.malformed (.ykcmpReserved reserved))
  else
    let ⟨packedAt, _⟩ ← Word.add offset 0x0C
    let compressedSize ← data.word packedAt 4
    if compressedSize < headerSize then throw (.malformed (.ykcmpSizeTooSmall compressedSize))
    else
      let ⟨unpackedAt, _⟩ ← Word.add offset 0x10
      let decompressedSize ← data.word unpackedAt 4
      pure ⟨compressedSize, decompressedSize⟩

/-- The end of an input that starts at `start` of its buffer. -/
def endOnWords (start : Nat) (input : Bytes) : OnWords Nat := do
  let ⟨stop, _⟩ ← Word.add start input.size
  pure stop

/-- Where the operands of an opcode at `read` are looked for, as sums; a literal, whose operands
are taken together, is left out. -/
def operandPlaces (opcode : UInt8) (read first : Nat) : List (Nat × Nat) :=
  if opcode = 0 then [(first, 0), (first, 1), (first, 2), (first, 3), (read, 5), (read, 6)]
  else if opcode < 0xC0 then []
  else if opcode < 0xE0 then [(read, 1)]
  else [(read, 1), (read, 2)]

/-- The bytes at some places of an input, one after another. -/
def operandsOnWords (start : Nat) (input : Bytes) : (places : List (Nat × Nat)) →
    OnWords (List UInt8)
  | [] => pure []
  | (a, k) :: places => do
    let ⟨position, _⟩ ← Word.add a k
    let b ← byteOnWords start (endOnWords start input) input position
    let others ← operandsOnWords start input places
    pure (b :: others)

/-- `Instruction.ofOperands` on words. -/
def Instruction.ofOperandsOnWords (opcode : UInt8) (operands : List UInt8) :
    OnWords Instruction :=
  let n := opcode.toNat
  let x := (operands.map UInt8.toNat).getD 0 0
  let y := (operands.map UInt8.toNat).getD 1 0
  if opcode = 0 then
    pure (.absolute (ofLittleEndian (operands.take 4)) (ofLittleEndian (operands.drop 4)))
  else if opcode < 0x80 then pure (.literal operands)
  else if opcode < 0xC0 then do
    let ⟨distance, _⟩ ← Word.add (n % 16) 1
    let ⟨length, _⟩ ← Word.add (n / 16 - 8) 1
    pure (.short distance length)
  else if opcode < 0xE0 then do
    let ⟨distance, _⟩ ← Word.add x 1
    let ⟨length, _⟩ ← Word.add (n - 0xC0) 2
    pure (.medium distance length)
  else do
    let ⟨distance, _⟩ ← Word.add (256 * (x % 16) + y) 1
    let ⟨length, _⟩ ← Word.add (16 * n + x / 16 - 0xE00) 3
    pure (.long distance length)

/-- The instruction whose opcode stands at `read`, and where the next one starts. -/
def fetchOnWords (start : Nat) (input : Bytes) (read : Nat) (opcode : UInt8) :
    OnWords (Instruction × { next : Nat // read < next }) := do
  let ⟨first, hfirst⟩ ← Word.add read 1
  if opcode ≠ 0 ∧ opcode < 0x80 then
    let ⟨next, hnext⟩ ← Word.add first opcode.toNat
    if next ≤ input.size then
      pure (.literal (input.extract first next).toList, ⟨next, by omega⟩)
    else
      let ⟨missing, _⟩ ← Word.add start first
      let stop ← endOnWords start input
      throw (.outOfBounds missing opcode.toNat stop)
  else
    let operands ← operandsOnWords start input (operandPlaces opcode read first)
    let instruction ← Instruction.ofOperandsOnWords opcode operands
    let ⟨next, hnext⟩ ← Word.add read (Instruction.operandCount opcode + 1)
    pure (instruction, ⟨next, by omega⟩)

/-- `Instruction.execute` on words, with an output of `written` bytes. -/
def Instruction.executeOnWords (limit : Nat) (out : Bytes) (written : Nat) :
    Instruction → OnWords (Bytes × Nat)
  | .absolute source length => do
    let out ← copyFromOnWords limit out source written length
    let ⟨written, _⟩ ← Word.add written length
    pure (out, written)
  | .literal bytes => do
    let ⟨stop, _⟩ ← Word.add written bytes.length
    if limit < stop then throw (.outOfBounds written bytes.length limit)
    else
      let ⟨written, _⟩ ← Word.add written bytes.length
      pure (out ++ bytes.toArray, written)
  | .short distance length
  | .medium distance length
  | .long distance length => do
    let out ← copyBackOnWords limit out written distance length
    let ⟨written, _⟩ ← Word.add written length
    pure (out, written)

/-- `run` on words, of an input from `start` on of which `read` bytes are read, with an output of
`written` bytes. The instructions are counted. -/
def runOnWords (limit start : Nat) (input : Bytes) (read written instructions : Nat) (out : Bytes) :
    OnWords Bytes :=
  if h : read < input.size then do
    let ⟨instructions, _⟩ ← Word.add instructions 1
    let ⟨instruction, next, hnext⟩ ← fetchOnWords start input read input[read]
    let ⟨out, written⟩ ← instruction.executeOnWords limit out written
    runOnWords limit start input next written instructions out
  else pure out
termination_by input.size - read

/-- `decompressAt` on words. -/
def decompressAtOnWords (data : Bytes) (offset : Nat) : OnWords Bytes := do
  let header ← Header.parseOnWords data offset
  let ⟨start, _⟩ ← Word.add offset headerSize
  let input ← data.slice start (header.compressedSize - headerSize)
  let out ← runOnWords header.decompressedSize start input 0 0 0 #[]
  pure (out.padTo header.decompressedSize)

theorem Header.run_parseOnWords (hdata : data.size < 0x4000000000000000) :
    (Header.parseOnWords data offset).run = some (Header.parse data offset) := by
  refine OnWords.run_bind rfl fun _ hmagic => ?_
  have hfits := (Bytes.expectMagic_eq_ok_iff.mp hmagic).fits
  refine Word.run_add (by omega) (OnWords.run_bind rfl fun _ _ => ?_)
  refine OnWords.run_ite (fun _ => rfl) fun _ => ?_
  refine Word.run_add (by omega) (OnWords.run_bind rfl fun _ _ => ?_)
  refine OnWords.run_ite (fun _ => rfl) fun _ => ?_
  exact Word.run_add (by omega) (OnWords.run_bind rfl fun _ _ => rfl)

theorem run_endOnWords (hbound : start + input.size < 0x8000000000000000) :
    (endOnWords start input).run = some (.ok (start + input.size)) :=
  Word.run_add (by omega) rfl

/-- Operands that are looked for one behind the other are read up to the end of the input. -/
theorem run_operandsOnWords (hbound : start + input.size < 0x8000000000000000)
    {places : List (Nat × Nat)} {position : Nat} {rest : List UInt8}
    (hplaces : places.map (fun place => place.1 + place.2) = List.range' position places.length)
    (hrest : input.toList.drop position = rest) (hposition : position ≤ input.size) :
    (operandsOnWords start input places).run = some (if rest.length < places.length then
      .error (.outOfBounds (start + input.size) 1 (start + input.size))
      else .ok (rest.take places.length)) := by
  induction places generalizing position rest with
  | nil => rfl
  | cons place places ih =>
    obtain ⟨a, k⟩ := place
    rw [List.map_cons, List.length_cons, List.range'_succ] at hplaces
    obtain ⟨rfl, hplaces⟩ := List.cons.inj hplaces
    refine Word.run_add (by omega) ?_
    cases rest with
    | nil =>
      have hend := size_le_of_drop hrest
      rw [List.length_cons, List.length_nil, if_pos (Nat.succ_pos _)]
      apply OnWords.run_bind_error
      exact run_byteOnWords_of_size (run_endOnWords hbound) (by omega) rfl (by omega)
    | cons b rest =>
      obtain ⟨⟨hlt, -⟩, htail⟩ := getElem_of_drop hrest
      have hothers := ih hplaces htail hlt
      refine OnWords.run_bind_ok (run_byteOnWords_of_drop hrest) ?_
      simp only [List.length_cons, Nat.add_lt_add_iff_right, List.take_succ_cons]
      split at hothers
      case isTrue hcut => rw [if_pos hcut, OnWords.run_bind_error hothers]
      case isFalse hwhole =>
        rw [if_neg hwhole]
        exact OnWords.run_bind_ok hothers rfl

namespace Instruction

variable {opcode : UInt8}

/-- The operands of an opcode are looked for right behind it. -/
theorem sums_operandPlaces (h : ¬ (opcode ≠ 0 ∧ opcode < 0x80)) :
    (operandPlaces opcode read (read + 1)).map (fun place => place.1 + place.2) =
      List.range' (read + 1) (operandCount opcode) := by
  unfold operandPlaces operandCount
  split
  case isTrue => rfl
  case isFalse hzero =>
    rw [if_neg fun hlt => h ⟨hzero, hlt⟩]
    split
    case isTrue => rfl
    case isFalse => split <;> rfl

theorem getD_toNat_lt (operands : List UInt8) (i : Nat) :
    (operands.map UInt8.toNat).getD i 0 < 256 := by
  rw [List.getD_eq_getElem?_getD, List.getElem?_map]
  cases operands[i]? with
  | none => decide
  | some b => exact b.toNat_lt

theorem run_ofOperandsOnWords (operands : List UInt8) :
    (ofOperandsOnWords opcode operands).run = some (.ok (ofOperands opcode operands)) := by
  have hn := opcode.toNat_lt
  have hx := getD_toNat_lt operands 0
  have hy := getD_toNat_lt operands 1
  unfold ofOperandsOnWords ofOperands
  dsimp only
  split_ifs with hzero hliteral hshort hmedium
  · rfl
  · rfl
  · exact Word.run_add (by omega) (Word.run_add (by omega) rfl)
  · exact Word.run_add (by omega) (Word.run_add (by omega) rfl)
  · rw [UInt8.lt_iff_toNat_lt] at hmedium
    have hcode : 0xE0 ≤ opcode.toNat := Nat.le_of_not_lt hmedium
    -- The bits of the opcode that tell a long copy are taken off its length.
    have hlength : 16 * opcode.toNat + (operands.map UInt8.toNat).getD 0 0 / 16 - 0xE00 =
        16 * (opcode.toNat - 0xE0) + (operands.map UInt8.toNat).getD 0 0 / 16 := by omega
    refine Word.run_add (by omega) ?_
    rw [hlength]
    exact Word.run_add (by omega) rfl

end Instruction

/-- An instruction whose operands end early is refused, and else fetched with all of them. -/
theorem run_fetchOnWords (hbound : start + input.size < 0x8000000000000000) {opcode : UInt8}
    {rest : List UInt8} (hrest : input.toList.drop read = opcode :: rest) :
    (fetchOnWords start input read opcode).run =
      some (if rest.length < Instruction.operandCount opcode then
        .error (truncated (start + input.size) opcode rest.length)
      else .ok (Instruction.ofOperands opcode (rest.take (Instruction.operandCount opcode)),
        ⟨read + (Instruction.operandCount opcode + 1), by omega⟩)) := by
  have hopcode := opcode.toNat_lt
  obtain ⟨⟨hlt, -⟩, htail⟩ := getElem_of_drop hrest
  have hlength : rest.length = input.size - (read + 1) := by
    rw [← htail, List.length_drop, Array.length_toList]
  refine Word.run_add (by omega) ?_
  dsimp only
  split
  case isTrue hliteral =>
    have hcount : Instruction.operandCount opcode = opcode.toNat := by
      rw [Instruction.operandCount, if_neg hliteral.1, if_pos hliteral.2]
    refine Word.run_add (by omega) ?_
    simp only [hcount]
    split
    case isTrue hfits =>
      have hoperands : (input.extract (read + 1) (read + 1 + opcode.toNat)).toList =
          rest.take opcode.toNat := by
        rw [Array.toList_extract, List.extract_eq_take_drop, htail, Nat.add_sub_cancel_left]
      have hinstruction : Instruction.ofOperands opcode (rest.take opcode.toNat) =
          .literal (rest.take opcode.toNat) := by
        simp only [Instruction.ofOperands, if_neg hliteral.1, if_pos hliteral.2]
      have hnext : read + 1 + opcode.toNat = read + (opcode.toNat + 1) := by omega
      rw [if_neg (by omega), hinstruction, OnWords.run_pure, hoperands]
      simp only [hnext]
    case isFalse hends =>
      have hmissing : start + input.size - rest.length = start + (read + 1) := by omega
      rw [if_pos (by omega), truncated, if_pos hliteral, hmissing]
      exact Word.run_add (by omega) (OnWords.run_bind_ok (run_endOnWords hbound) rfl)
  case isFalse hplaces =>
    have hsums : (operandPlaces opcode read (read + 1)).map (fun place => place.1 + place.2) =
        List.range' (read + 1) (Instruction.operandCount opcode) :=
      Instruction.sums_operandPlaces hplaces
    have hcount := congrArg List.length hsums
    rw [List.length_map, List.length_range'] at hcount
    have hoperands := run_operandsOnWords hbound (hcount ▸ hsums) htail hlt
    rw [hcount] at hoperands
    split at hoperands
    case isTrue hcut =>
      rw [if_pos hcut, truncated, if_neg hplaces]
      exact OnWords.run_bind_error hoperands
    case isFalse hwhole =>
      rw [if_neg hwhole]
      refine OnWords.run_bind_ok hoperands ?_
      refine OnWords.run_bind_ok (Instruction.run_ofOperandsOnWords _) ?_
      exact Word.run_add (by omega) rfl

namespace Instruction

variable {out : Bytes}

theorem size_execute_le (hout : out.size ≤ limit) {out' : Bytes} {i : Instruction}
    (h : execute limit out i = .ok out') : out'.size ≤ limit := by
  cases i with
  | absolute source length => exact (size_copyFrom hout h).2
  | literal bytes =>
    change append limit out bytes.toArray = .ok out' at h
    unfold append at h
    split at h
    case isTrue => cases h
    case isFalse hfits =>
      cases h
      rw [Array.size_append]
      exact Nat.le_of_not_lt hfits
  | short distance length
  | medium distance length
  | long distance length => exact (size_copyBack hout h).2

theorem run_executeOnWords (hlimit : limit < 0x100000000) (hout : out.size ≤ limit)
    {i : Instruction} (hi : i.IsEncodable) : (i.executeOnWords limit out out.size).run =
      some (execute limit out i >>= fun out' => .ok (out', out'.size)) := by
  cases i with
  | absolute source length =>
    obtain ⟨-, hlength⟩ := hi
    refine OnWords.run_bind (run_copyFromOnWords (by omega) (by omega)) fun out' hcopy => ?_
    rw [(size_copyFrom hout hcopy).1]
    exact Word.run_add (by omega) rfl
  | literal bytes =>
    obtain ⟨-, hlength⟩ := hi
    refine Word.run_add (by omega) ?_
    show _ = some (append limit out bytes.toArray >>= _)
    by_cases hfits : limit < out.size + bytes.length
    · have happend : append limit out bytes.toArray =
          .error (.outOfBounds out.size bytes.length limit) := if_pos hfits
      rw [happend]
      exact OnWords.run_if_pos hfits rfl
    · have happend : append limit out bytes.toArray = .ok (out ++ bytes.toArray) := if_neg hfits
      rw [happend]
      refine OnWords.run_if_neg hfits (Word.run_add (by omega) ?_)
      have hsize : out.size + bytes.length = (out ++ bytes.toArray).size :=
        Array.size_append.symm
      rw [OnWords.run_pure, hsize]
      rfl
  | short distance length
  | medium distance length
  | long distance length =>
    unfold IsEncodable at hi
    refine OnWords.run_bind (run_copyBackOnWords (by omega) (by omega)) fun out' hcopy => ?_
    rw [(size_copyBack hout hcopy).1]
    exact Word.run_add (by omega) rfl

end Instruction

/-- An instruction that has all its operands is fetched and carried out. -/
theorem run_instruction (hlimit : limit < 0x100000000)
    (hbound : start + input.size < 0x8000000000000000) {out : Bytes} {opcode : UInt8}
    {rest : List UInt8} (hrest : input.toList.drop read = opcode :: rest)
    (hwhole : ¬ (rest.take (Instruction.operandCount opcode)).length <
      Instruction.operandCount opcode) (hout : out.size ≤ limit) :
    let i := Instruction.ofOperands opcode (rest.take (Instruction.operandCount opcode))
    (fetchOnWords start input read opcode).run =
        some (.ok (i, ⟨read + (Instruction.operandCount opcode + 1), by omega⟩)) ∧
      (i.executeOnWords limit out out.size).run =
        some (i.execute limit out >>= fun out' => .ok (out', out'.size)) := by
  have hcount : (rest.take (Instruction.operandCount opcode)).length =
      Instruction.operandCount opcode := by
    rw [List.length_take] at hwhole ⊢
    omega
  have hfetch := run_fetchOnWords hbound hrest
  rw [if_neg (by rw [List.length_take] at hwhole; omega)] at hfetch
  have hencodable := (Instruction.encode_ofOperands hcount).1
  exact ⟨hfetch, Instruction.run_executeOnWords hlimit hout hencodable⟩

/-- The counts are kept in step with the input that is left and with the output, and there are no
more instructions than bytes. -/
theorem run_runOnWords (hlimit : limit < 0x100000000)
    (hbound : start + input.size < 0x8000000000000000) {out : Bytes} {rest : List UInt8}
    {read instructions : Nat} (hrest : input.toList.drop read = rest) (hout : out.size ≤ limit)
    (hinstructions : instructions ≤ read) :
    (runOnWords limit start input read out.size instructions out).run =
      some (run limit (start + input.size) out rest) := by
  fun_induction run limit (start + input.size) out rest generalizing read instructions
  case case1 out =>
    have hend := size_le_of_drop hrest
    rw [runOnWords, dif_neg (Nat.not_lt.mpr hend)]
    rfl
  case case2 out opcode rest count operands hcut =>
    obtain ⟨⟨hlt, hopcode⟩, -⟩ := getElem_of_drop hrest
    have hfetch := run_fetchOnWords hbound hrest
    rw [if_pos (by rw [List.length_take] at hcut; omega)] at hfetch
    rw [runOnWords, dif_pos hlt, hopcode]
    exact Word.run_add (by omega) (OnWords.run_bind_error hfetch)
  case case3 out opcode rest count operands hwhole e hexecute =>
    obtain ⟨⟨hlt, hopcode⟩, -⟩ := getElem_of_drop hrest
    obtain ⟨hfetch, hexecuted⟩ := run_instruction hlimit hbound hrest hwhole hout
    rw [hexecute] at hexecuted
    rw [runOnWords, dif_pos hlt, hopcode]
    refine Word.run_add (by omega) (OnWords.run_bind_ok hfetch ?_)
    exact OnWords.run_bind_error hexecuted
  case case4 out opcode rest count operands hwhole out' hexecute ih =>
    obtain ⟨⟨hlt, hopcode⟩, htail⟩ := getElem_of_drop hrest
    obtain ⟨hfetch, hexecuted⟩ := run_instruction hlimit hbound hrest hwhole hout
    rw [hexecute] at hexecuted
    have hnext : input.toList.drop (read + (count + 1)) = rest.drop count := by
      rw [← htail, List.drop_drop, Nat.add_assoc, Nat.add_comm 1]
    rw [runOnWords, dif_pos hlt, hopcode]
    refine Word.run_add (by omega) (OnWords.run_bind_ok hfetch (OnWords.run_bind_ok hexecuted ?_))
    exact ih hnext (Instruction.size_execute_le hout hexecute) (by omega)

theorem run_decompressAtOnWords (hdata : data.size < 0x4000000000000000) :
    (decompressAtOnWords data offset).run = some (decompressAt data offset) := by
  refine OnWords.run_bind (Header.run_parseOnWords hdata) fun header hheader => ?_
  obtain ⟨hfits, -, hpacked, hunpacked⟩ := Header.bounds_of_parse hheader
  refine Word.run_add (by omega) (OnWords.run_bind rfl fun input hinput => ?_)
  obtain ⟨hsize, -⟩ := Bytes.holdsAt_of_slice hinput
  have hempty : (#[] : Bytes).size ≤ header.decompressedSize := Nat.zero_le _
  refine OnWords.run_bind ?_ fun _ _ => rfl
  exact run_runOnWords hunpacked (by omega) rfl hempty (Nat.le_refl _)

end GameArchive.Codec.Ykcmp
