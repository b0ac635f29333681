import GameArchive.Proofs.Codec.Embedding
import GameArchive.Proofs.Words.Arithmetic
/-!
# Copies and LZS streams on words

Decoding counts how many bytes it has read and written. The output takes no more bytes than a
header can state, and the input lies inside the buffer, so that neither count comes near the bound
of words, nor does a sum with a length that a token states.
-/
namespace GameArchive.Codec

section Copies

variable {limit source target length : Nat} {out : Bytes}

/-- `copyOnto` on words: the bytes go from behind `source` to behind `target`, and `done` of them
are there already. -/
def copyOntoOnWords (source target : Nat) (out : Bytes) (done : Nat) : (length : Nat) → OnWords Bytes
  | 0 => pure out
  | length + 1 => do
    let ⟨_, _⟩ ← Word.add target done
    let ⟨position, _⟩ ← Word.add source done
    copyOntoOnWords source target (out.push (out.getD position 0)) (done + 1) length

/-- `copyFrom` on words, for an output of `target` bytes. -/
def copyFromOnWords (limit : Nat) (out : Bytes) (source target length : Nat) : OnWords Bytes :=
  if length = 0 then pure out
  else if target ≤ source then throw (.outOfBounds source length target)
  else do
    let ⟨stop, _⟩ ← Word.add target length
    if limit < stop then throw (.outOfBounds target length limit)
    else copyOntoOnWords source target out 0 length

/-- `copyBack` on words, for an output of `target` bytes. -/
def copyBackOnWords (limit : Nat) (out : Bytes) (target distance length : Nat) : OnWords Bytes :=
  if target < distance then throw (.outOfBounds target distance target)
  else copyFromOnWords limit out (target - distance) target length

theorem run_copyOntoOnWords {done : Nat} (hsource : source + done + length ≤ 0x10000000000000000)
    (htarget : target + done + length ≤ 0x10000000000000000) :
    (copyOntoOnWords source target out done length).run =
      some (.ok (copyOnto out (source + done) length)) := by
  induction length generalizing out done with
  | zero => rfl
  | succ length ih =>
    exact Word.run_add (by omega) (Word.run_add (by omega) (ih (by omega) (by omega)))

theorem run_copyFromOnWords (hout : out.size < 0x100000000) (hlength : length < 0x100000000) :
    (copyFromOnWords limit out source out.size length).run =
      some (copyFrom limit out source length) := by
  refine OnWords.run_ite (fun _ => rfl) fun _ => OnWords.run_ite (fun _ => rfl) fun hsource => ?_
  refine Word.run_add (by omega) (OnWords.run_ite (fun _ => rfl) fun _ => ?_)
  exact run_copyOntoOnWords (by omega) (by omega)

theorem run_copyBackOnWords {distance : Nat} (hout : out.size < 0x100000000)
    (hlength : length < 0x100000000) :
    (copyBackOnWords limit out out.size distance length).run =
      some (copyBack limit out distance length) :=
  OnWords.run_ite (fun _ => rfl) fun _ => run_copyFromOnWords hout hlength

theorem size_copyFrom (hout : out.size ≤ limit) {out' : Bytes}
    (h : copyFrom limit out source length = .ok out') :
    out'.size = out.size + length ∧ out'.size ≤ limit := by
  unfold copyFrom at h
  split at h
  case isTrue hlength => cases h; omega
  case isFalse =>
    split at h
    case isTrue => cases h
    case isFalse =>
      split at h
      case isTrue => cases h
      case isFalse hfits =>
        cases h
        rw [size_copyOnto]
        omega

theorem size_copyBack (hout : out.size ≤ limit) {distance : Nat} {out' : Bytes}
    (h : copyBack limit out distance length = .ok out') :
    out'.size = out.size + length ∧ out'.size ≤ limit := by
  unfold copyBack at h
  split at h
  case isTrue => cases h
  case isFalse => exact size_copyFrom hout h

end Copies

section Input

variable {input : Bytes} {position start stop : Nat} {b : UInt8} {rest : List UInt8}

/-- The byte of an input that stands at `start` of its buffer. Where there is none, the end of the
input is computed for the message. -/
def byteOnWords (start : Nat) (stop : OnWords Nat) (input : Bytes) (position : Nat) :
    OnWords UInt8 :=
  match input[position]? with
  | some b => pure b
  | none => do
    let ⟨missing, _⟩ ← Word.add start position
    let stop ← stop
    throw (.outOfBounds missing 1 stop)

theorem size_le_of_drop (h : input.toList.drop position = []) : input.size ≤ position := by
  rwa [List.drop_eq_nil_iff, Array.length_toList] at h

theorem getElem_of_drop (h : input.toList.drop position = b :: rest) :
    (∃ hlt : position < input.size, input[position] = b) ∧
      input.toList.drop (position + 1) = rest := by
  have hlt : position < input.toList.length := by
    refine Nat.lt_of_not_le fun hle => ?_
    rw [List.drop_eq_nil_of_le hle] at h
    cases h
  rw [List.drop_eq_getElem_cons hlt] at h
  obtain ⟨hb, hrest⟩ := List.cons.inj h
  exact ⟨⟨by rwa [Array.length_toList] at hlt, hb⟩, hrest⟩

theorem run_byteOnWords_of_drop {s : OnWords Nat} (h : input.toList.drop position = b :: rest) :
    (byteOnWords start s input position).run = some (.ok b) := by
  obtain ⟨⟨hlt, hb⟩, -⟩ := getElem_of_drop h
  rw [byteOnWords, Array.getElem?_eq_getElem hlt, hb]
  rfl

theorem run_byteOnWords_of_size {s : OnWords Nat} (hs : s.run = some (.ok stop))
    (h : position = input.size) (hstop : start + input.size = stop)
    (hlimit : stop < 0x10000000000000000) :
    (byteOnWords start s input position).run = some (.error (.outOfBounds stop 1 stop)) := by
  subst h hstop
  rw [byteOnWords, Array.getElem?_eq_none (Nat.le_refl _)]
  exact Word.run_add hlimit (OnWords.run_bind_ok hs rfl)

end Input

namespace Lzs

variable {data : Bytes} {offset : Nat}

/-- `Header.parse` on words. -/
def Header.parseOnWords (data : Bytes) (offset : Nat) : OnWords Header := do
  let extension ← data.slice offset 4
  let ⟨unpackedAt, _⟩ ← Word.add offset 0x04
  let decompressedSize ← data.word unpackedAt 4
  let ⟨packedAt, _⟩ ← Word.add offset 0x08
  let compressedSize ← data.word packedAt 4
  let ⟨flagAt, _⟩ ← Word.add offset 0x0C
  let flag ← data.word flagAt 1
  if compressedSize < headerSize - sizeOrigin then
    throw (.malformed (.lzsSizeTooSmall compressedSize))
  else pure ⟨extension, decompressedSize, compressedSize, UInt8.ofNat flag⟩

/-- `run` on words, of an input from `start` to `stop` of which `read` bytes are read, with an
output of `written` bytes. -/
def runOnWords (flag : UInt8) (limit start stop : Nat) (input : Bytes) (read written : Nat)
    (out : Bytes) : OnWords Bytes :=
  if h : read < input.size then
    if limit ≤ written then pure out
    else if input[read] ≠ flag then do
      let ⟨written, _⟩ ← Word.add written 1
      let ⟨next, _⟩ ← Word.add read 1
      runOnWords flag limit start stop input next written (out.push input[read])
    else do
      let ⟨second, _⟩ ← Word.add read 1
      let d ← byteOnWords start (pure stop) input second
      if d = flag then
        let ⟨written, _⟩ ← Word.add written 1
        let ⟨next, _⟩ ← Word.add read 2
        runOnWords flag limit start stop input next written (out.push flag)
      else
        let ⟨third, _⟩ ← Word.add read 2
        let n ← byteOnWords start (pure stop) input third
        let out ← copyBackOnWords limit out written (distanceOf flag d) n.toNat
        let ⟨written, _⟩ ← Word.add written n.toNat
        let ⟨next, _⟩ ← Word.add read 3
        runOnWords flag limit start stop input next written out
  else pure out
termination_by input.size - read

/-- `decompressAt` on words. -/
def decompressAtOnWords (data : Bytes) (offset : Nat) : OnWords Bytes := do
  let header ← Header.parseOnWords data offset
  let ⟨start, _⟩ ← Word.add offset headerSize
  let ⟨origin, _⟩ ← Word.add offset sizeOrigin
  let ⟨stop, _⟩ ← Word.add origin header.compressedSize
  let input ← data.slice start (stop - start)
  let out ← runOnWords header.flag header.decompressedSize start stop input 0 0 #[]
  pure (out.padTo header.decompressedSize)

theorem Header.run_parseOnWords (hdata : data.size < 0x4000000000000000) :
    (Header.parseOnWords data offset).run = some (Header.parse data offset) := by
  refine OnWords.run_bind rfl fun extension hextension => ?_
  have hfits := (Bytes.slice_eq_ok.mp hextension).1
  refine Word.run_add (by omega) (OnWords.run_bind rfl fun _ _ => ?_)
  refine Word.run_add (by omega) (OnWords.run_bind rfl fun _ _ => ?_)
  refine Word.run_add (by omega) (OnWords.run_bind rfl fun _ _ => ?_)
  exact OnWords.run_ite (fun _ => rfl) fun _ => rfl

variable {flag : UInt8} {limit start stop : Nat} {input : Bytes}

/-- The counts are kept in step with the input that is left and with the output. -/
theorem run_runOnWords (hlimit : limit < 0x100000000) (hstop : start + input.size = stop)
    (hbound : stop < 0x8000000000000000) {out : Bytes} {rest : List UInt8} {read : Nat}
    (hrest : input.toList.drop read = rest) (hout : out.size ≤ limit) :
    (runOnWords flag limit start stop input read out.size out).run =
      some (run flag limit stop out rest) := by
  fun_induction run flag limit stop out rest generalizing read with
  | case1 out =>
    have hend := size_le_of_drop hrest
    rw [runOnWords, dif_neg (Nat.not_lt.mpr hend)]
    rfl
  | case2 out b rest hfull =>
    obtain ⟨⟨hlt, -⟩, -⟩ := getElem_of_drop hrest
    rw [runOnWords, dif_pos hlt]
    exact OnWords.run_if_pos hfull rfl
  | case3 out b rest hroom hliteral ih =>
    obtain ⟨⟨hlt, rfl⟩, htail⟩ := getElem_of_drop hrest
    have hnext := ih htail (by rw [Array.size_push]; omega)
    rw [Array.size_push] at hnext
    rw [runOnWords, dif_pos hlt]
    refine OnWords.run_if_neg hroom (OnWords.run_if_pos hliteral ?_)
    exact Word.run_add (by omega) (Word.run_add (by omega) hnext)
  | case4 out b hroom hflag =>
    obtain ⟨⟨hlt, rfl⟩, htail⟩ := getElem_of_drop hrest
    have hend := size_le_of_drop htail
    rw [runOnWords, dif_pos hlt]
    refine OnWords.run_if_neg hroom (OnWords.run_if_neg hflag (Word.run_add (by omega) ?_))
    exact OnWords.run_bind_error (run_byteOnWords_of_size rfl (by omega) hstop (by omega))
  | case5 out b hroom hflag rest ih =>
    obtain ⟨⟨hlt, rfl⟩, htail⟩ := getElem_of_drop hrest
    obtain ⟨⟨hlt', -⟩, htail'⟩ := getElem_of_drop htail
    have hnext := ih htail' (by rw [Array.size_push]; omega)
    rw [Array.size_push] at hnext
    rw [runOnWords, dif_pos hlt]
    refine OnWords.run_if_neg hroom (OnWords.run_if_neg hflag (Word.run_add (by omega) ?_))
    refine OnWords.run_bind_ok (run_byteOnWords_of_drop htail) (OnWords.run_if_pos rfl ?_)
    exact Word.run_add (by omega) (Word.run_add (by omega) hnext)
  | case6 out b hroom hflag d hd =>
    obtain ⟨⟨hlt, rfl⟩, htail⟩ := getElem_of_drop hrest
    obtain ⟨⟨hlt', -⟩, htail'⟩ := getElem_of_drop htail
    have hend := size_le_of_drop htail'
    rw [runOnWords, dif_pos hlt]
    refine OnWords.run_if_neg hroom (OnWords.run_if_neg hflag (Word.run_add (by omega) ?_))
    refine OnWords.run_bind_ok (run_byteOnWords_of_drop htail) (OnWords.run_if_neg hd ?_)
    refine Word.run_add (by omega) (OnWords.run_bind_error ?_)
    exact run_byteOnWords_of_size rfl (by omega) hstop (by omega)
  | case7 out b hroom hflag d hd n rest e hcopy =>
    obtain ⟨⟨hlt, rfl⟩, htail⟩ := getElem_of_drop hrest
    obtain ⟨⟨hlt', -⟩, htail'⟩ := getElem_of_drop htail
    have hn := n.toNat_lt
    have hcopy' : (copyBackOnWords limit out out.size (distanceOf flag d) n.toNat).run =
        some (.error e) := by
      rw [run_copyBackOnWords (by omega) (by omega), hcopy]
    rw [runOnWords, dif_pos hlt]
    refine OnWords.run_if_neg hroom (OnWords.run_if_neg hflag (Word.run_add (by omega) ?_))
    refine OnWords.run_bind_ok (run_byteOnWords_of_drop htail) (OnWords.run_if_neg hd ?_)
    refine Word.run_add (by omega) (OnWords.run_bind_ok (run_byteOnWords_of_drop htail') ?_)
    exact OnWords.run_bind_error hcopy'
  | case8 out b hroom hflag d hd n rest out' hcopy ih =>
    obtain ⟨⟨hlt, rfl⟩, htail⟩ := getElem_of_drop hrest
    obtain ⟨⟨hlt', -⟩, htail'⟩ := getElem_of_drop htail
    obtain ⟨-, htail''⟩ := getElem_of_drop htail'
    have hn := n.toNat_lt
    have hcopy' : (copyBackOnWords limit out out.size (distanceOf flag d) n.toNat).run =
        some (.ok out') := by
      rw [run_copyBackOnWords (by omega) (by omega), hcopy]
    obtain ⟨hsize, hout'⟩ := size_copyBack hout hcopy
    rw [runOnWords, dif_pos hlt]
    refine OnWords.run_if_neg hroom (OnWords.run_if_neg hflag (Word.run_add (by omega) ?_))
    refine OnWords.run_bind_ok (run_byteOnWords_of_drop htail) (OnWords.run_if_neg hd ?_)
    refine Word.run_add (by omega) (OnWords.run_bind_ok (run_byteOnWords_of_drop htail') ?_)
    refine OnWords.run_bind_ok hcopy' (Word.run_add (by omega) (Word.run_add (by omega) ?_))
    exact hsize ▸ ih htail'' hout'

theorem run_decompressAtOnWords (hdata : data.size < 0x4000000000000000) :
    (decompressAtOnWords data offset).run = some (decompressAt data offset) := by
  refine OnWords.run_bind (Header.run_parseOnWords hdata) fun header hheader => ?_
  obtain ⟨hfits, hmin, hpacked, hunpacked⟩ := Header.bounds_of_parse hheader
  unfold headerSize sizeOrigin at hmin ⊢
  refine Word.run_add (by omega) (Word.run_add (by omega) (Word.run_add (by omega) ?_))
  refine OnWords.run_bind rfl fun input hinput => ?_
  obtain ⟨hsize, -⟩ := Bytes.holdsAt_of_slice hinput
  have hstop : offset + 0x10 + input.size = offset + 0x04 + header.compressedSize := by omega
  have hempty : (#[] : Bytes).size ≤ header.decompressedSize := Nat.zero_le _
  refine OnWords.run_bind ?_ fun _ _ => rfl
  exact run_runOnWords hunpacked hstop (by omega) rfl hempty

end Lzs
end GameArchive.Codec
