import GameArchive.Proofs.Text.ShiftJis
import GameArchive.Text.FixedText
/-!
# Text in fields of fixed width

A field holds the code of a text and zero bytes behind it. No code has a zero byte in it, so the
text ends where its code does.
-/
namespace GameArchive.Text.FixedText

variable {s : String} {width : Nat} {code field : List UInt8}

theorem encode_eq_ok : encode s width = .ok field ↔ ∃ code, ShiftJis.encode? s = some code ∧
    code.length ≤ width ∧ field = code ++ List.replicate (width - code.length) 0 := by
  unfold encode
  cases ShiftJis.encode? s with
  | none => simp
  | some code =>
    dsimp only
    split
    case isTrue hle => simp [hle, eq_comm]
    case isFalse hgt => simp [hgt]

theorem length_of_encode (h : encode s width = .ok field) : field.length = width := by
  obtain ⟨code, -, hle, rfl⟩ := encode_eq_ok.mp h
  rw [List.length_append, List.length_replicate, Nat.add_sub_cancel' hle]

theorem takeWhile_append_zeros (h : ∀ b ∈ code, b ≠ 0) (n : Nat) :
    (code ++ List.replicate n 0).takeWhile (· ≠ 0) = code := by
  rw [List.takeWhile_append_of_pos (by simpa using h), List.takeWhile_replicate]
  simp

theorem decode_of_spells (hs : ∀ c ∈ s.toList, ShiftJis.ReadsBack c)
    (h : ShiftJis.Spells s.toList code) (n : Nat) : decode (code ++ List.replicate n 0) = s := by
  obtain ⟨hdecode, hne⟩ := h.separates hs
  unfold decode ShiftJis.decode
  rw [takeWhile_append_zeros hne, hdecode, String.ofList_toList]

end GameArchive.Text.FixedText
