import GameArchive.Proofs.Codec.BackCopy
import GameArchive.Proofs.Codec.Lzs
import Mathlib.Data.List.Infix
/-!
# LZS tokens

Whichever byte the flag is, the bytes that may follow it stand for the distances from 0 to 254, one
each. So every input is a list of tokens, behind which a flag sequence may be cut short. Unpacking
appends what the tokens stand for until the output is full, and is refused at the first token
before that which cannot be carried out.
-/
namespace GameArchive.Codec.Lzs

theorem distanceOf_distanceByte (flag : UInt8) {distance : Nat} (h : distance ≤ 254) :
    distanceByte flag distance ≠ flag ∧ distanceOf flag (distanceByte flag distance) = distance := by
  have hflag := flag.toNat_lt
  have hbyte : (distanceByte flag distance).toNat =
      if distance < flag.toNat then distance else distance + 1 := by
    rw [distanceByte, UInt8.toNat_ofNat', Nat.mod_eq_of_lt]
    split <;> omega
  constructor
  · rw [Ne, ← UInt8.toNat_inj, hbyte]
    split <;> omega
  · simp only [distanceOf, UInt8.lt_iff_toNat_lt, hbyte]
    split <;> split <;> omega

theorem distanceByte_distanceOf {flag b : UInt8} (h : b ≠ flag) :
    distanceOf flag b ≤ 254 ∧ distanceByte flag (distanceOf flag b) = b := by
  have hflag := flag.toNat_lt
  have hb := b.toNat_lt
  rw [Ne, ← UInt8.toNat_inj] at h
  have hdistance : distanceOf flag b = if flag.toNat < b.toNat then b.toNat - 1 else b.toNat := by
    simp only [distanceOf, UInt8.lt_iff_toNat_lt]
  constructor
  · rw [hdistance]
    split <;> omega
  · rw [distanceByte, ← UInt8.toNat_inj, UInt8.toNat_ofNat', hdistance]
    split <;> split <;> omega

namespace Token

/-- Whether a token has an encoding: a byte holds its distance, and another its length. -/
def IsEncodable : Token → Prop
  | .literal _ => True
  | .copy distance length => distance ≤ 254 ∧ length ≤ 255

instance (t : Token) : Decidable t.IsEncodable := by
  cases t with
  | literal b => exact inferInstanceAs (Decidable True)
  | copy distance length => exact inferInstanceAs (Decidable (_ ∧ _))

/-- The bytes so far with those of a token behind them. -/
def appendTo (out : List UInt8) : Token → List UInt8
  | .literal b => out ++ [b]
  | .copy distance length => copyEach out (out.length - distance) length

/-- Whether a token means something behind `size` bytes: a copy reaches back to these. -/
def HasSource (size : Nat) : Token → Prop
  | .literal _ => True
  | .copy distance length => distance ≤ size ∧ (0 < length → 0 < distance)

instance (size : Nat) (t : Token) : Decidable (t.HasSource size) := by
  cases t with
  | literal b => exact inferInstanceAs (Decidable True)
  | copy distance length => exact inferInstanceAs (Decidable (_ ∧ (_ → _)))

theorem length_le_appendTo (out : List UInt8) (t : Token) : out.length ≤ (t.appendTo out).length := by
  cases t with
  | literal b => rw [appendTo, List.length_append]; exact Nat.le_add_right _ _
  | copy distance length => rw [appendTo, length_copyEach]; exact Nat.le_add_right _ _

theorem appendTo_eq_self {out : List UInt8} {t : Token} (h : (t.appendTo out).length = out.length) :
    t.appendTo out = out := by
  cases t with
  | literal b => simp [appendTo] at h
  | copy distance length =>
    rw [appendTo, length_copyEach] at h
    obtain rfl : length = 0 := by omega
    rfl

end Token

/-- The bytes of tokens. -/
def encodeAll (flag : UInt8) (tokens : List Token) : List UInt8 :=
  tokens.flatMap (Token.encode flag)

/-- The bytes that tokens leave behind `out`. -/
def expand (out : List UInt8) (tokens : List Token) : List UInt8 :=
  tokens.foldl Token.appendTo out

/-- Whether tokens behind `out` mean something one after another. -/
def HaveSources : (out : List UInt8) → List Token → Prop
  | _, [] => True
  | out, t :: rest => t.HasSource out.length ∧ HaveSources (t.appendTo out) rest

instance decidableHaveSources : (out : List UInt8) → (tokens : List Token) →
    Decidable (HaveSources out tokens)
  | _, [] => inferInstanceAs (Decidable True)
  | out, t :: rest =>
    have := decidableHaveSources (t.appendTo out) rest
    inferInstanceAs (Decidable (_ ∧ _))

/-- Whether an input that is read behind `size` bytes, when there are to be `limit`, starts with a
copy that cannot be carried out or ends inside a flag sequence. -/
inductive IsRefused (flag : UInt8) (limit size : Nat) : List UInt8 → Prop where
  | endsBehindFlag : IsRefused flag limit size [flag]
  | endsBehindDistance {b : UInt8} (hb : b ≠ flag) : IsRefused flag limit size [flag, b]
  | pastLimit {b length : UInt8} {rest : List UInt8} (hb : b ≠ flag)
      (h : limit < size + length.toNat) : IsRefused flag limit size (flag :: b :: length :: rest)
  | beforeStart {b length : UInt8} {rest : List UInt8} (hb : b ≠ flag)
      (h : size < distanceOf flag b) : IsRefused flag limit size (flag :: b :: length :: rest)
  | fromEnd {b length : UInt8} {rest : List UInt8} (hb : b ≠ flag) (h : distanceOf flag b = 0)
      (hlength : 0 < length.toNat) : IsRefused flag limit size (flag :: b :: length :: rest)

theorem length_le_expand (out : List UInt8) (tokens : List Token) :
    out.length ≤ (expand out tokens).length := by
  induction tokens generalizing out with
  | nil => exact Nat.le_refl _
  | cons t rest ih => exact Nat.le_trans (t.length_le_appendTo out) (ih (t.appendTo out))

theorem expand_eq_self {out : List UInt8} {tokens : List Token}
    (h : (expand out tokens).length = out.length) : expand out tokens = out := by
  induction tokens generalizing out with
  | nil => rfl
  | cons t rest ih =>
    have hstep := t.length_le_appendTo out
    have hrest := length_le_expand (t.appendTo out) rest
    have hlen : (expand (t.appendTo out) rest).length = out.length := h
    have hsame : t.appendTo out = out := Token.appendTo_eq_self (by omega)
    rw [hsame] at hlen
    have := ih hlen
    rw [expand, List.foldl_cons, hsame]
    exact this

section Run

variable {flag : UInt8} {limit : Nat} (inputEnd : Nat)

/-- Nothing is read for an output that is full. -/
theorem run_of_full {out : Bytes} {input : List UInt8} (h : limit ≤ out.size) :
    run flag limit inputEnd out input = .ok out := by
  cases input with
  | nil => rfl
  | cons b rest =>
    rw [run.eq_def]
    exact if_pos h

theorem run_flag {out : Bytes} {b length : UInt8} {rest : List UInt8} (hfit : out.size < limit)
    (hb : b ≠ flag) : run flag limit inputEnd out (flag :: b :: length :: rest) =
      (copyBack limit out (distanceOf flag b) length.toNat).bind fun out =>
        run flag limit inputEnd out rest := by
  rw [run.eq_def]
  simp only [if_neg (Nat.not_le.mpr hfit), ne_eq, not_true_eq_false, if_false, if_neg hb]
  cases copyBack limit out (distanceOf flag b) length.toNat <;> rfl

theorem isOutOfBounds_run {out : Bytes} {input : List UInt8} (hfit : out.size < limit)
    (h : IsRefused flag limit out.size input) :
    IsOutOfBounds (run flag limit inputEnd out input) := by
  have hcopy : ∀ {b length : UInt8} {rest : List UInt8}, b ≠ flag →
      ¬ ReachesBack limit out.size (distanceOf flag b) length.toNat →
      IsOutOfBounds (run flag limit inputEnd out (flag :: b :: length :: rest)) := by
    intro b length rest hb hreach
    rw [run_flag inputEnd hfit hb]
    exact isOutOfBounds_bind (isOutOfBounds_copyBack hreach)
  cases h with
  | endsBehindFlag =>
    rw [run.eq_def]
    simp only [if_neg (Nat.not_le.mpr hfit), ne_eq, not_true_eq_false, if_false]
    exact ⟨_, _, _, rfl⟩
  | endsBehindDistance hb =>
    rw [run.eq_def]
    simp only [if_neg (Nat.not_le.mpr hfit), ne_eq, not_true_eq_false, if_false, if_neg hb]
    exact ⟨_, _, _, rfl⟩
  | pastLimit hb h => exact hcopy hb fun hreach => by have := hreach.2 (by omega); omega
  | beforeStart hb h => exact hcopy hb fun hreach => by have := hreach.1; omega
  | fromEnd hb h hlength => exact hcopy hb fun hreach => by have := hreach.2 hlength; omega

/-- One token appends what it stands for, if that ends at the limit or before. -/
theorem run_encode_append {out : List UInt8} {t : Token} (rest : List UInt8) (ht : t.IsEncodable)
    (hsource : t.HasSource out.length) (hroom : out.length < limit)
    (hfit : (t.appendTo out).length ≤ limit) :
    run flag limit inputEnd out.toArray (t.encode flag ++ rest) =
      run flag limit inputEnd (t.appendTo out).toArray rest := by
  cases t with
  | literal b =>
    rw [run_literal (by simpa using hroom), List.push_toArray]
    rfl
  | copy distance length =>
    obtain ⟨hdistance, hlength⟩ := ht
    obtain ⟨hback, hpos⟩ := hsource
    obtain ⟨hbyte, hinverse⟩ := distanceOf_distanceByte flag hdistance
    have hcount : (UInt8.ofNat length).toNat = length := by
      rw [UInt8.toNat_ofNat', Nat.mod_eq_of_lt (by omega)]
    rw [Token.appendTo, length_copyEach] at hfit
    have hreach : ReachesBack limit out.toArray.size distance length :=
      ⟨hback, fun h => ⟨hpos h, hfit⟩⟩
    rw [Token.encode, List.cons_append, List.cons_append, List.cons_append, List.nil_append,
      run_flag inputEnd (by simpa using hroom) hbyte, hinverse, hcount,
      copyBack_eq_copyEach hreach]
    rfl

/-- Tokens that do not fill the output leave what they stand for. -/
theorem run_of_expand_lt {out : List UInt8} {tokens : List Token} (rest : List UInt8)
    (hencodable : ∀ t ∈ tokens, t.IsEncodable) (hsources : HaveSources out tokens)
    (hroom : (expand out tokens).length < limit) :
    run flag limit inputEnd out.toArray (encodeAll flag tokens ++ rest) =
      run flag limit inputEnd (expand out tokens).toArray rest := by
  induction tokens generalizing out with
  | nil => rfl
  | cons t ts ih =>
    have hstep := t.length_le_appendTo out
    have hrest := length_le_expand (t.appendTo out) ts
    have hlen : (expand (t.appendTo out) ts).length < limit := hroom
    rw [encodeAll, List.flatMap_cons, List.append_assoc, run_encode_append inputEnd _
      (hencodable t List.mem_cons_self) hsources.1 (by omega) (by omega), ← encodeAll]
    exact ih (fun s hs => hencodable s (List.mem_cons_of_mem _ hs)) hsources.2 hlen

/-- Tokens that fill the output leave what they stand for, whatever is behind them. -/
theorem run_of_expand_eq {out : List UInt8} {tokens : List Token} (rest : List UInt8)
    (hencodable : ∀ t ∈ tokens, t.IsEncodable) (hsources : HaveSources out tokens)
    (hfull : (expand out tokens).length = limit) :
    run flag limit inputEnd out.toArray (encodeAll flag tokens ++ rest) =
      .ok (expand out tokens).toArray := by
  induction tokens generalizing out with
  | nil => exact run_of_full inputEnd (Nat.le_of_eq hfull.symm)
  | cons t ts ih =>
    have hstep := t.length_le_appendTo out
    have hrest := length_le_expand (t.appendTo out) ts
    have hlen : (expand (t.appendTo out) ts).length = limit := hfull
    rcases Nat.lt_or_ge out.length limit with hroom | hno
    · rw [encodeAll, List.flatMap_cons, List.append_assoc, run_encode_append inputEnd _
        (hencodable t List.mem_cons_self) hsources.1 hroom (by omega), ← encodeAll]
      exact ih (fun s hs => hencodable s (List.mem_cons_of_mem _ hs)) hsources.2 hlen
    · -- Only copies of no bytes are left.
      rw [run_of_full inputEnd hno, expand_eq_self (by omega)]

end Run

/-- Whether an input is the bytes of some tokens, perhaps with a flag sequence behind them that is
cut short. -/
structure Splits (flag : UInt8) (input : List UInt8) (tokens : List Token) (tail : List UInt8) :
    Prop where
  encodable : ∀ t ∈ tokens, t.IsEncodable
  tail_cut : tail = [] ∨ tail = [flag] ∨ ∃ b, b ≠ flag ∧ tail = [flag, b]
  input_eq : input = encodeAll flag tokens ++ tail

theorem Splits.cons {flag : UInt8} {rest tail : List UInt8} {tokens : List Token} (t : Token)
    (bytes : List UInt8) (ht : t.IsEncodable) (hbytes : bytes = t.encode flag) (h : Splits flag rest tokens tail) :
    Splits flag (bytes ++ rest) (t :: tokens) tail := by
  obtain ⟨hencodable, htail, rfl⟩ := h
  refine ⟨List.forall_mem_cons.mpr ⟨ht, hencodable⟩, htail, ?_⟩
  rw [hbytes, encodeAll, encodeAll, List.flatMap_cons, List.append_assoc]

theorem splits_of_tail {flag : UInt8} {tail : List UInt8}
    (h : tail = [] ∨ tail = [flag] ∨ ∃ b, b ≠ flag ∧ tail = [flag, b]) : Splits flag tail [] tail :=
  ⟨fun _ ht => absurd ht List.not_mem_nil, h, rfl⟩

theorem exists_splits (flag : UInt8) (input : List UInt8) :
    ∃ tokens tail, Splits flag input tokens tail := by
  match input with
  | [] => exact ⟨_, _, splits_of_tail (Or.inl rfl)⟩
  | a :: rest =>
    by_cases ha : a = flag
    · match rest with
      | [] => exact ⟨_, _, splits_of_tail (Or.inr (Or.inl (by rw [ha])))⟩
      | b :: rest =>
        by_cases hb : b = flag
        · obtain ⟨tokens, tail, h⟩ := exists_splits flag rest
          refine ⟨_, _, Splits.cons (.literal flag) [a, b] trivial ?_ h⟩
          rw [ha, hb, Token.encode, if_pos rfl]
        · match rest with
          | [] => exact ⟨_, _, splits_of_tail (Or.inr (Or.inr ⟨b, hb, by rw [ha]⟩))⟩
          | length :: rest =>
            obtain ⟨tokens, tail, h⟩ := exists_splits flag rest
            obtain ⟨hdistance, hbyte⟩ := distanceByte_distanceOf hb
            have hlength := length.toNat_lt
            refine ⟨_, _, Splits.cons (.copy (distanceOf flag b) length.toNat)
              [a, b, length] ⟨hdistance, by omega⟩ ?_ h⟩
            rw [ha, Token.encode, hbyte, UInt8.ofNat_toNat]
    · obtain ⟨tokens, tail, h⟩ := exists_splits flag rest
      refine ⟨_, _, Splits.cons (.literal a) [a] trivial ?_ h⟩
      rw [Token.encode, if_neg ha]
termination_by input.length

/-- A stream with `body` behind a header that states the flag and `size` bytes of output. -/
def stream (extension : Bytes) (flag : UInt8) (size : Nat) (body : List UInt8) : Bytes :=
  ((Header.mk extension size (headerSize - sizeOrigin + body.length) flag).toBytes ++ body).toArray

theorem decompress_stream {extension : Bytes} {flag : UInt8} {size : Nat} {body : List UInt8}
    (hext : extension.size = 4) (hbody : headerSize - sizeOrigin + body.length < sizeLimit)
    (hsize : size < sizeLimit) : decompress (stream extension flag size body) =
      (run flag size (headerSize + body.length) #[] body).map (·.padTo size) := by
  have hdata : (stream extension flag size body).toList =
      (Header.mk extension size (headerSize - sizeOrigin + body.length) flag).toBytes ++ body ++ [] := by
    rw [stream, List.append_nil]
  exact decompress_of_header [] hdata hext rfl hbody hsize

/-- A stream of tokens unpacks to what these stand for: when that is all the output, whatever input
there is behind them, and when there is to be more output, then filled up with zero bytes. A
stream is refused that comes, before the output is full, to a copy that cannot be carried out or
ends inside a flag sequence. Tokens, with perhaps such an end, are all that an input can be. -/
theorem decompress_stream_expands {extension : Bytes} (flag : UInt8) (hext : extension.size = 4) :
    (∀ (tokens : List Token) (extra : List UInt8), (∀ t ∈ tokens, t.IsEncodable) →
      HaveSources [] tokens →
      headerSize - sizeOrigin + (encodeAll flag tokens ++ extra).length < sizeLimit →
      (expand [] tokens).length < sizeLimit →
      decompress (stream extension flag (expand [] tokens).length (encodeAll flag tokens ++ extra)) =
        .ok (expand [] tokens).toArray) ∧
    (∀ (tokens : List Token) (size : Nat), (∀ t ∈ tokens, t.IsEncodable) → HaveSources [] tokens →
      headerSize - sizeOrigin + (encodeAll flag tokens).length < sizeLimit → size < sizeLimit →
      (expand [] tokens).length < size →
      decompress (stream extension flag size (encodeAll flag tokens)) =
        .ok (expand [] tokens ++ List.replicate (size - (expand [] tokens).length) 0).toArray) ∧
    (∀ (tokens : List Token) (rest : List UInt8) (size : Nat), (∀ t ∈ tokens, t.IsEncodable) →
      HaveSources [] tokens →
      headerSize - sizeOrigin + (encodeAll flag tokens ++ rest).length < sizeLimit →
      size < sizeLimit → (expand [] tokens).length < size →
      IsRefused flag size (expand [] tokens).length rest →
      IsOutOfBounds (decompress (stream extension flag size (encodeAll flag tokens ++ rest)))) ∧
    ∀ input : List UInt8, ∃ tokens tail, Splits flag input tokens tail := by
  refine ⟨?_, ?_, ?_, exists_splits flag⟩
  · intro tokens extra hencodable hsources hbody hsize
    rw [decompress_stream hext hbody hsize,
      run_of_expand_eq _ _ hencodable hsources rfl, Except.map, Bytes.padTo_of_le (by simp)]
  · intro tokens size hencodable hsources hbody hsize hroom
    rw [decompress_stream hext hbody hsize, ← List.append_nil (encodeAll flag tokens),
      run_of_expand_lt _ _ hencodable hsources hroom, run.eq_def, Except.map, Bytes.padTo_toArray]
  · intro tokens rest size hencodable hsources hbody hsize hroom hrefused
    rw [decompress_stream hext hbody hsize, run_of_expand_lt _ _ hencodable hsources hroom]
    apply isOutOfBounds_map
    exact isOutOfBounds_run _ (by simpa using hroom) (by simpa using hrefused)

/-- A byte, the flag itself if that is 2, four bytes from two back, and none from one back. -/
def flagAndCopies : List Token :=
  [.literal 0x61, .literal 0x02, .copy 2 4, .copy 1 0]

theorem decompress_stream_expands_flagAndCopies :
    encodeAll 0x02 flagAndCopies = [0x61, 0x02, 0x02, 0x02, 0x03, 4, 0x02, 0x01, 0] ∧
    decompress (stream #[0, 0, 0, 0] 0x02 6 (encodeAll 0x02 flagAndCopies ++ [0xFF])) =
      .ok #[0x61, 0x02, 0x61, 0x02, 0x61, 0x02] ∧
    decompress (stream #[0, 0, 0, 0] 0x02 8 (encodeAll 0x02 flagAndCopies)) =
      .ok #[0x61, 0x02, 0x61, 0x02, 0x61, 0x02, 0, 0] ∧
    IsOutOfBounds (decompress (stream #[0, 0, 0, 0] 0x02 8
      (encodeAll 0x02 flagAndCopies ++ [0x02, 0x01, 3]))) := by
  obtain ⟨hfull, hzeros, hrefused, -⟩ :=
    decompress_stream_expands 0x02 (show (#[0, 0, 0, 0] : Bytes).size = 4 from rfl)
  have hencodable : ∀ t ∈ flagAndCopies, t.IsEncodable := by decide
  have hsources : HaveSources [] flagAndCopies := by decide
  refine ⟨by decide, ?_, ?_, ?_⟩
  · exact hfull flagAndCopies [0xFF] hencodable hsources (by decide) (by decide)
  · exact hzeros flagAndCopies 8 hencodable hsources (by decide) (by decide) (by decide)
  · exact hrefused flagAndCopies [0x02, 0x01, 3] 8 hencodable hsources (by decide) (by decide)
      (by decide) (.pastLimit (by decide) (by decide))

end GameArchive.Codec.Lzs
