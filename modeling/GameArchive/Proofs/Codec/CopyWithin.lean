import GameArchive.Proofs.Codec.BackCopy
/-!
# Copies within a buffer

An output may stand at the start of a buffer that has its final size from the beginning. A copy is
then carried out in place: each byte is read from the buffer that the bytes before it were written
to. It gives what a copy behind the output alone gives and leaves the rest of the buffer as it was.
So the bytes from its source to its target are repeated, and behind the target it reads no byte that
it has not written itself. Positions are numbers here; `run_copyFromOnWords` shows that those of a
decoder stay words.
-/
namespace GameArchive.Codec

/-- An access to one byte of a buffer. -/
inductive Access where
  | read (position : Nat)
  | write (position : Nat)
  deriving DecidableEq

/-- A buffer, and the accesses to it so far, the last one first. -/
structure Watched where
  bytes : Bytes
  accesses : List Access
  deriving DecidableEq

/-- A program on a buffer. It may fail, and it is stopped when it leaves the buffer. -/
abbrev OnBuffer := ExceptT Error (OptionT (StateM Watched))

namespace OnBuffer

variable {α β : Type} {w w' : Watched}

/-- What a program gives for a buffer, which is nothing if it is stopped, and the buffer that it
leaves. -/
def on (program : OnBuffer α) (w : Watched) : Option (Except Error α) × Watched :=
  program.run.run.run w

/-- The program that is stopped. -/
def stop : OnBuffer α :=
  ExceptT.lift OptionT.fail

/-- The number of bytes in the buffer. -/
def size : OnBuffer Nat :=
  return (← get).bytes.size

/-- The byte at `position`. -/
def read (position : Nat) : OnBuffer UInt8 := do
  let w ← get
  match w.bytes[position]? with
  | none => stop
  | some b =>
    set (Watched.mk w.bytes (.read position :: w.accesses))
    pure b

/-- Puts the byte `b` at `position`. -/
def write (position : Nat) (b : UInt8) : OnBuffer Unit := do
  let w ← get
  if w.bytes.size ≤ position then stop
  else set (Watched.mk (w.bytes.setIfInBounds position b) (.write position :: w.accesses))

theorem on_get : (get : OnBuffer Watched).on w = (some (.ok w), w) :=
  rfl

theorem on_size : size.on w = (some (.ok w.bytes.size), w) :=
  rfl

theorem on_bind {program : OnBuffer α} {next : α → OnBuffer β} {a : α}
    (h : program.on w = (some (.ok a), w')) : (program >>= next).on w = (next a).on w' := by
  unfold on at h ⊢
  rw [ExceptT.run_bind, OptionT.run_bind, Option.elimM, StateT.run_bind, h]
  rfl

theorem on_read {position : Nat} {b : UInt8} (h : w.bytes[position]? = some b) :
    (read position).on w = (some (.ok b), ⟨w.bytes, .read position :: w.accesses⟩) := by
  rw [read, on_bind on_get, h]
  rfl

theorem on_write {position : Nat} (b : UInt8) (h : position < w.bytes.size) :
    (write position b).on w =
      (some (.ok ()), ⟨w.bytes.setIfInBounds position b, .write position :: w.accesses⟩) := by
  rw [write, on_bind on_get, if_neg (Nat.not_le.mpr h)]
  rfl

end OnBuffer

open OnBuffer

/-- Copies the byte at `source` to `target`. -/
def copyByte (source target : Nat) : OnBuffer Unit := do
  let b ← read source
  write target b

/-- Copies `length` bytes one after another, `done` bytes being copied already. -/
def copyBytes (source target done : Nat) : (length : Nat) → OnBuffer Unit
  | 0 => pure ()
  | length + 1 => do
    copyByte (source + done) (target + done)
    copyBytes source target (done + 1) length

/-- Copies `length` bytes, from `source` on, to the positions from `target` on. The copy has to start
before its target and to end inside the buffer, unless there is no byte to copy. -/
def copyWithin (source target length : Nat) : OnBuffer Unit := do
  if length = 0 then pure ()
  else if target ≤ source then throw (.outOfBounds source length target)
  else
    let limit ← size
    if limit < target + length then throw (.outOfBounds target length limit)
    else copyBytes source target 0 length

variable {source target length done k : Nat}

section Accesses

/-- The accesses of a copy, the last one first. -/
def copyAccesses (source target : Nat) : (length : Nat) → List Access
  | 0 => []
  | length + 1 =>
    .write (target + length) :: .read (source + length) :: copyAccesses source target length

/-- Whether each byte that was read at `target` or behind it had been written before. -/
def ReadsOwnWrites (target : Nat) : (accesses : List Access) → Prop
  | [] => True
  | .read p :: earlier => (target ≤ p → .write p ∈ earlier) ∧ ReadsOwnWrites target earlier
  | .write _ :: earlier => ReadsOwnWrites target earlier

theorem write_mem_copyAccesses (hk : k < length) :
    .write (target + k) ∈ copyAccesses source target length := by
  induction length with
  | zero => omega
  | succ length ih =>
    rw [copyAccesses]
    rcases Nat.lt_succ_iff_lt_or_eq.mp hk with hlt | rfl
    · exact List.mem_cons_of_mem _ (List.mem_cons_of_mem _ (ih hlt))
    · exact List.mem_cons_self

theorem readsOwnWrites_copyAccesses (hsource : source < target) (length : Nat) :
    ReadsOwnWrites target (copyAccesses source target length) := by
  induction length with
  | zero => trivial
  | succ length ih =>
    refine ⟨fun hbehind => ?_, ih⟩
    have hwritten : .write (target + (source + length - target)) ∈
        copyAccesses source target length := write_mem_copyAccesses (by omega)
    rwa [Nat.add_sub_cancel' hbehind] at hwritten

end Accesses

section Window

variable {out room : List UInt8}

/-- Whether the bytes from `source` to `target` stand in `after` over and over, on `length` bytes from
`target` on, and everything else is as in `before`. -/
structure RepeatsWindow (before after : Bytes) (source target length : Nat) : Prop where
  size_eq : after.size = before.size
  outside : ∀ p, ¬ (target ≤ p ∧ p < target + length) → after[p]? = before[p]?
  inside : ∀ k < length, after[target + k]? = before[source + k % (target - source)]?

theorem repeatsWindow_copyEach (hsource : source < out.length) (hlength : length ≤ room.length) :
    RepeatsWindow (out ++ room).toArray (copyEach out source length ++ room.drop length).toArray
      source out.length length := by
  constructor
  case size_eq =>
    simp only [List.size_toArray, List.length_append, length_copyEach, List.length_drop]
    omega
  case outside =>
    intro p hp
    rw [List.getElem?_toArray, List.getElem?_toArray]
    rcases Nat.lt_or_ge p out.length with hlt | hge
    · rw [List.getElem?_append_left (by rw [length_copyEach]; omega), List.getElem?_append_left hlt,
        getElem?_copyEach_of_lt hlt]
    · have hbehind : out.length + length ≤ p := by omega
      have hplace : length + (p - (out.length + length)) = p - out.length := by omega
      rw [List.getElem?_append_right (by rw [length_copyEach]; exact hbehind), length_copyEach,
        List.getElem?_drop, hplace, List.getElem?_append_right hge]
  case inside =>
    intro k hk
    have hwindow : k % (out.length - source) < out.length - source := Nat.mod_lt _ (by omega)
    rw [List.getElem?_toArray, List.getElem?_toArray,
      List.getElem?_append_left (by rw [length_copyEach]; omega),
      List.getElem?_append_left (by omega), getElem?_copyEach hsource hk]

end Window

section Copying

variable {out room : List UInt8} {accesses : List Access} {buffer : Bytes}

/-- One step makes the output longer by the byte at the source, and the room behind it shorter. -/
theorem on_copyByte {r : UInt8} (hsource : source < out.length) :
    (copyByte source out.length).on ⟨(out ++ r :: room).toArray, accesses⟩ =
      (some (.ok ()), ⟨(out ++ [out.getD source 0] ++ room).toArray,
        .write out.length :: .read source :: accesses⟩) := by
  have hread : (out ++ r :: room).toArray[source]? = some (out.getD source 0) := by
    rw [List.getElem?_toArray, List.getElem?_append_left hsource, List.getD_eq_getElem?_getD,
      List.getElem?_eq_getElem hsource, Option.getD_some]
  have hwrite : out.length < (out ++ r :: room).toArray.size := by
    rw [List.size_toArray, List.length_append, List.length_cons]
    omega
  rw [copyByte, on_bind (on_read hread), on_write _ hwrite]
  simp

theorem on_copyBytes (hout : out.length = target + done) (hsource : source < target)
    (hlength : length ≤ room.length) :
    (copyBytes source target done length).on
        ⟨(out ++ room).toArray, copyAccesses source target done⟩ =
      (some (.ok ()), ⟨(copyEach out (source + done) length ++ room.drop length).toArray,
        copyAccesses source target (done + length)⟩) := by
  induction length generalizing out room done with
  | zero => rfl
  | succ length ih =>
    cases room with
    | nil => cases hlength
    | cons r room =>
      have hstep : (copyByte (source + done) out.length).on
          ⟨(out ++ r :: room).toArray, copyAccesses source target done⟩ = _ :=
        on_copyByte (by omega)
      rw [hout] at hstep
      have hlonger : (out ++ [out.getD (source + done) 0]).length = target + (done + 1) := by
        rw [List.length_append, hout]
        rfl
      have hrest := ih hlonger (Nat.le_of_succ_le_succ hlength)
      rw [copyBytes, on_bind hstep, copyEach, List.drop_succ_cons, Nat.add_comm length,
        ← Nat.add_assoc]
      exact hrest

/-- What a copy within a buffer gives that goes from the end of `out` on over the bytes `room`, where
`copied` is what the same copy gives behind `out` alone. -/
def settle (out room : List UInt8) (source length : Nat) :
    (copied : Except Error Bytes) → Option (Except Error Unit) × Watched
  | .ok copied =>
    (some (.ok ()), ⟨copied ++ (room.drop length).toArray, copyAccesses source out.length length⟩)
  | .error e => (some (.error e), ⟨(out ++ room).toArray, []⟩)

theorem on_copyWithin : (copyWithin source out.length length).on ⟨(out ++ room).toArray, []⟩ =
    settle out room source length
      (copyFrom (out ++ room).length out.toArray source length) := by
  unfold copyWithin copyFrom
  rw [List.size_toArray]
  split
  case isTrue hzero =>
    rw [hzero, settle, List.drop_zero, ← List.append_toArray]
    rfl
  case isFalse =>
    split
    case isTrue => rfl
    case isFalse hsource =>
      rw [on_bind on_size, List.size_toArray]
      split
      case isTrue => rfl
      case isFalse hfits =>
        rw [List.length_append] at hfits
        have hcopied : (copyBytes source out.length 0 length).on ⟨(out ++ room).toArray, []⟩ = _ :=
          on_copyBytes rfl (Nat.lt_of_not_le hsource) (by omega)
        rw [settle, copyOnto_eq_copyEach, List.append_toArray]
        rwa [Nat.zero_add] at hcopied

theorem exists_eq_append_of_le (htarget : target ≤ buffer.size) :
    ∃ out room : List UInt8, buffer = (out ++ room).toArray ∧ target = out.length := by
  refine ⟨buffer.toList.take target, buffer.toList.drop target, ?_, ?_⟩
  · rw [List.take_append_drop]
  · rw [List.length_take, Array.length_toList, Nat.min_eq_left htarget]

/-- A copy within a buffer succeeds exactly when it starts before its target and ends inside the
buffer, and then repeats what lies between its source and its target. One that is refused has read
and written nothing. Either way it agrees with the copy behind the bytes before the target. -/
theorem copyWithin_repeats_window (hlength : 0 < length) (htarget : target ≤ buffer.size) :
    ∃ result after, (copyWithin source target length).on ⟨buffer, []⟩ = (some result, after) ∧
      (result = .ok () ↔ source < target ∧ target + length ≤ buffer.size) ∧
      (result = .ok () → RepeatsWindow buffer after.bytes source target length ∧
        after.accesses = copyAccesses source target length ∧
        ReadsOwnWrites target after.accesses) ∧
      (result ≠ .ok () → IsOutOfBounds result ∧ after = ⟨buffer, []⟩) ∧
      copyFrom buffer.size (buffer.extract 0 target) source length =
        result.map fun _ => after.bytes.extract 0 (target + length) := by
  obtain ⟨out, room, rfl, rfl⟩ := exists_eq_append_of_le htarget
  have hout : (out ++ room).toArray.extract 0 out.length = out.toArray := by simp
  rw [hout, List.size_toArray, on_copyWithin]
  by_cases hcopy : source < out.length ∧ out.length + length ≤ (out ++ room).length
  case pos =>
    obtain ⟨hsource, hfits⟩ := id hcopy
    rw [List.length_append] at hfits
    rw [copyFrom_eq_copyEach fun _ => hcopy, settle, List.append_toArray]
    have hwindow := repeatsWindow_copyEach hsource (by omega : length ≤ room.length)
    have hreads := readsOwnWrites_copyAccesses hsource length
    refine ⟨.ok (), _, rfl, iff_of_true rfl hcopy, fun _ => ⟨hwindow, rfl, hreads⟩, ?_, ?_⟩
    · exact fun h => absurd rfl h
    · -- Up to the end of the copy the buffer holds the longer output.
      simp [Except.map]
  case neg =>
    have hrefused : IsOutOfBounds (copyFrom (out ++ room).length out.toArray source length) :=
      isOutOfBounds_copyFrom fun h => hcopy (h hlength)
    obtain ⟨offset, refused, limit, herror⟩ := hrefused
    rw [herror]
    refine ⟨.error _, _, rfl, iff_of_false nofun hcopy, nofun, fun _ => ⟨?_, rfl⟩, rfl⟩
    exact ⟨offset, refused, limit, rfl⟩

/-- Two bytes are repeated over four. -/
theorem copyWithin_repeats_window_overlapping :
    0 < 4 ∧ 3 ≤ (#[0x61, 0x62, 0x63, 0, 0, 0, 0] : Bytes).size ∧
      (copyWithin 1 3 4).on ⟨#[0x61, 0x62, 0x63, 0, 0, 0, 0], []⟩ =
        (some (.ok ()), ⟨#[0x61, 0x62, 0x63, 0x62, 0x63, 0x62, 0x63], copyAccesses 1 3 4⟩) ∧
      ReadsOwnWrites 3 (copyAccesses 1 3 4) := by
  have hlength : 0 < 4 := by decide
  have htarget : 3 ≤ (#[0x61, 0x62, 0x63, 0, 0, 0, 0] : Bytes).size := by decide
  have hrun : (copyWithin 1 3 4).on ⟨#[0x61, 0x62, 0x63, 0, 0, 0, 0], []⟩ =
      (some (.ok ()), ⟨#[0x61, 0x62, 0x63, 0x62, 0x63, 0x62, 0x63], copyAccesses 1 3 4⟩) := rfl
  obtain ⟨result, after, hon, -, hcopied, -⟩ := copyWithin_repeats_window hlength htarget
  obtain ⟨hresult, rfl⟩ := Prod.mk.inj (hon.symm.trans hrun)
  obtain ⟨-, -, hreads⟩ := hcopied (Option.some.inj hresult)
  exact ⟨hlength, htarget, hrun, hreads⟩

/-- A copy that would end behind the buffer is refused before its first byte. -/
example : (copyWithin 0 2 3).on ⟨#[1, 2, 0, 0], []⟩ =
    (some (.error (.outOfBounds 2 3 4)), ⟨#[1, 2, 0, 0], []⟩) := by
  rfl

end Copying

end GameArchive.Codec
