import GameArchive.Proofs.Relayout
/-!
# The assembled payloads

All payloads stand at their new places in one picture: the old bytes, with the replaced range cut
out and the new bytes in its stead. Payloads may lie over each other; as each shows its part of
the picture, the order in which they are copied does not matter.
-/
namespace GameArchive

/-- `data` with the payload of an entry cut out and `bytes` in its stead. -/
def Entry.splice (old : Entry) (data bytes : Bytes) : Bytes :=
  data.extract 0 old.offset ++ bytes ++ data.extract old.endOffset data.size

namespace Entry

variable {old : Entry} {data bytes : Bytes} {p : Nat}

theorem getElem?_splice_before (hfit : old.endOffset ≤ data.size) (hp : p < old.offset) :
    (old.splice data bytes)[p]? = data[p]? := by
  unfold endOffset at hfit
  rw [splice, Array.append_assoc, Array.getElem?_append_left (by rw [Array.size_extract]; omega),
    Array.getElem?_extract, if_pos (by omega), Nat.zero_add]

theorem getElem?_splice_within (hfit : old.endOffset ≤ data.size) (hp : old.offset ≤ p)
    (hlt : p < old.offset + bytes.size) :
    (old.splice data bytes)[p]? = bytes[p - old.offset]? := by
  unfold endOffset at hfit
  have hhead : (data.extract 0 old.offset).size = old.offset := by
    rw [Array.size_extract]; omega
  rw [splice, Array.append_assoc, Array.getElem?_append_right (by omega), hhead,
    Array.getElem?_append_left (by omega)]

theorem getElem?_splice_behind (hfit : old.endOffset ≤ data.size) (hp : old.offset + bytes.size ≤ p) :
    (old.splice data bytes)[p]? = data[p + old.size - bytes.size]? := by
  unfold endOffset at hfit
  have hhead : (data.extract 0 old.offset ++ bytes).size = old.offset + bytes.size := by
    rw [Array.size_append, Array.size_extract]; omega
  rw [splice, Array.getElem?_append_right (by omega), hhead, Array.getElem?_extract, Nat.min_self]
  split
  case isTrue h =>
    congr 1
    unfold endOffset
    omega
  case isFalse h =>
    unfold endOffset at h
    rw [Array.getElem?_eq_none (by omega)]

/-- A payload put in its own place changes nothing. -/
theorem splice_self (hfit : old.endOffset ≤ data.size) :
    old.splice data (data.extract old.offset old.endOffset) = data := by
  have hle : old.offset ≤ old.endOffset := Nat.le_add_right _ _
  rw [splice, Array.extract_append_extract, Nat.min_eq_left (Nat.zero_le _), Nat.max_eq_right hle,
    Array.extract_append_extract, Nat.min_eq_left (Nat.zero_le _), Nat.max_eq_right hfit,
    Array.extract_size]

end Entry

namespace Relayout

/-- What is copied for entry `i`. -/
def payload (data : Bytes) (target : Nat) (bytes : Bytes) (i : Nat) (e : Entry) : Bytes :=
  if i = target then bytes else data.extract e.offset e.endOffset

@[simp]
theorem payload_target {data bytes : Bytes} {target : Nat} {e : Entry} :
    payload data target bytes target e = bytes :=
  if_pos rfl

theorem copyPayloads_eq_writeAll {data bytes : Bytes} {target k : Nat}
    {placed : List (Entry × Placement)} {out : Bytes} :
    copyPayloads data target bytes k placed out =
      Bytes.writeAll (placed.mapIdx fun i ep => (ep.2.offset, payload data target bytes (k + i) ep.1))
        out := by
  induction placed generalizing k out with
  | nil => rfl
  | cons ep rest ih =>
    rw [copyPayloads, ih, List.mapIdx_cons, Bytes.writeAll]
    simp only [payload, Nat.add_zero, Nat.add_assoc, Nat.add_comm 1]

theorem endOffset_le_foldl_max {ps : List Placement} {total : Nat} :
    total ≤ ps.foldl (fun total p => max total p.endOffset) total ∧
      ∀ p ∈ ps, p.endOffset ≤ ps.foldl (fun total p => max total p.endOffset) total := by
  induction ps generalizing total with
  | nil => simp
  | cons q rest ih =>
    obtain ⟨hinit, hrest⟩ := @ih (max total q.endOffset)
    rw [List.foldl_cons]
    refine ⟨Nat.le_trans (Nat.le_max_left _ _) hinit, ?_⟩
    intro p hp
    rcases List.mem_cons.mp hp with rfl | hp
    · exact Nat.le_trans (Nat.le_max_right _ _) hinit
    · exact hrest p hp

theorem endOffset_le_totalLength {r : Relayout} {p : Placement} (hp : p ∈ r.placements) :
    p.endOffset ≤ r.totalLength :=
  endOffset_le_foldl_max.2 p hp

theorem totalLength_le {r : Relayout} {limit : Nat} (h : ∀ p ∈ r.placements, p.endOffset ≤ limit) :
    r.totalLength ≤ limit := by
  apply List.foldlRecOn (motive := (· ≤ limit)) r.placements
  · exact Nat.zero_le limit
  · exact fun _ htotal p hp => Nat.max_le.mpr ⟨htotal, h p hp⟩

theorem headLength_le (r : Relayout) (entries : List Entry) {data : Bytes} {directoryEnd : Nat}
    (hdir : directoryEnd ≤ data.size) : r.headLength data directoryEnd entries ≤ data.size := by
  unfold headLength
  dsimp only
  omega

namespace Moves

variable {r : Relayout} {entries : List Entry} {name : String} {data bytes : Bytes} {old e : Entry}
  {directoryEnd i p : Nat}

/-- The payload of an entry is the part of the picture at its new place. -/
theorem payload_eq_splice (hm : r.Moves entries name bytes.size old)
    (hfit : ∀ e ∈ entries, e.endOffset ≤ data.size) (he : entries[i]? = some e)
    (hc : Bytes.Covers ((placement old r.target bytes.size i e).offset,
      payload data r.target bytes i e) p) :
    (payload data r.target bytes i e)[p - (placement old r.target bytes.size i e).offset]? =
      (old.splice data bytes)[p]? := by
  have holdfit := hfit old hm.old_mem
  have hefit := hfit e (List.mem_of_getElem? he)
  obtain ⟨hle, hlt⟩ := hc
  by_cases hi : i = r.target
  · subst hi
    obtain rfl : old = e := Option.some.inj (hm.old_at.symm.trans he)
    rw [payload_target, placement_target] at *
    rw [Entry.getElem?_splice_within holdfit hle hlt]
  · obtain ⟨-, hside⟩ := hm.before_or_after he hi
    simp only [payload, if_neg hi] at hlt ⊢
    unfold Entry.endOffset at *
    rw [Array.size_extract, Nat.min_eq_left hefit] at hlt
    rw [Array.getElem?_extract, Nat.min_eq_left hefit, if_pos (by omega)]
    rcases hside with ⟨hend, hoff⟩ | ⟨hend, hoff⟩
    · rw [Entry.getElem?_splice_before holdfit (by omega)]
      congr 1
      omega
    · rw [Entry.getElem?_splice_behind holdfit (by omega)]
      congr 1
      omega

theorem size_payload (hm : r.Moves entries name bytes.size old)
    (hfit : ∀ e ∈ entries, e.endOffset ≤ data.size) (he : entries[i]? = some e) :
    (payload data r.target bytes i e).size = (placement old r.target bytes.size i e).size := by
  have hefit := hfit e (List.mem_of_getElem? he)
  by_cases hi : i = r.target
  · subst hi
    rw [payload_target, placement_target]
  · rw [(hm.before_or_after he hi).1, payload, if_neg hi, Array.size_extract]
    unfold Entry.endOffset at *
    omega

theorem size_assemble (r : Relayout) (entries : List Entry) (bytes : Bytes)
    (hdir : directoryEnd ≤ data.size) :
    (r.assemble data directoryEnd entries bytes).size = max r.totalLength directoryEnd := by
  rw [assemble, copyPayloads_eq_writeAll, Bytes.size_writeAll, Bytes.size_padTo,
    Array.size_extract, headLength]
  omega

theorem size_assemble_le (hm : r.Moves entries name bytes.size old)
    (hfit : ∀ e ∈ entries, e.endOffset ≤ data.size) (hdir : directoryEnd ≤ data.size) :
    (r.assemble data directoryEnd entries bytes).size ≤ data.size + bytes.size := by
  rw [size_assemble r entries bytes hdir]
  refine Nat.max_le.mpr ⟨totalLength_le ?_, Nat.le_trans hdir (Nat.le_add_right _ _)⟩
  intro p hp
  obtain ⟨i, e, he, rfl⟩ := hm.exists_of_mem_placements hp
  exact hm.placement_endOffset_le hfit he

/-- What is copied is the payload of some entry, to where it is placed. -/
theorem exists_of_mem_pieces (hm : r.Moves entries name bytes.size old) {piece : Nat × Bytes}
    (hpiece : piece ∈ (entries.zip r.placements).mapIdx fun i ep =>
      (ep.2.offset, payload data r.target bytes (0 + i) ep.1)) :
    ∃ (i : Nat) (e : Entry), entries[i]? = some e ∧
      piece = ((placement old r.target bytes.size i e).offset, payload data r.target bytes i e) := by
  obtain ⟨i, hi⟩ := List.mem_iff_getElem?.mp hpiece
  rw [List.getElem?_mapIdx, Option.map_eq_some_iff] at hi
  obtain ⟨⟨e, p⟩, hzip, rfl⟩ := hi
  obtain ⟨he, hp⟩ := List.getElem?_zip_eq_some.mp hzip
  obtain rfl : placement old r.target bytes.size i e = p :=
    Option.some.inj ((hm.getElem?_placements he).symm.trans hp)
  exact ⟨i, e, he, by rw [Nat.zero_add]⟩

/-- Where some payload comes to lie, the picture shows. -/
theorem getElem?_assemble_of_covered (hm : r.Moves entries name bytes.size old)
    (hdir : directoryEnd ≤ data.size) (hfit : ∀ e ∈ entries, e.endOffset ≤ data.size)
    (he : entries[i]? = some e) (hle : (placement old r.target bytes.size i e).offset ≤ p)
    (hlt : p < (placement old r.target bytes.size i e).endOffset) :
    (r.assemble data directoryEnd entries bytes)[p]? = (old.splice data bytes)[p]? := by
  have htotal := endOffset_le_totalLength (hm.mem_placements he)
  have hsize := size_assemble r entries bytes hdir
  rw [assemble, copyPayloads_eq_writeAll, Bytes.size_writeAll] at hsize
  rw [assemble, copyPayloads_eq_writeAll]
  apply Bytes.getElem?_writeAll_of_covers
  · omega
  · intro piece hpiece hc
    obtain ⟨j, d, hd, rfl⟩ := hm.exists_of_mem_pieces hpiece
    exact hm.payload_eq_splice hfit hd hc
  · refine ⟨((placement old r.target bytes.size i e).offset, payload data r.target bytes i e), ?_, hle, ?_⟩
    · apply List.mem_iff_getElem?.mpr
      refine ⟨i, ?_⟩
      have hzip : (entries.zip r.placements)[i]? =
          some (e, placement old r.target bytes.size i e) :=
        List.getElem?_zip_eq_some.mpr ⟨he, hm.getElem?_placements he⟩
      rw [List.getElem?_mapIdx, hzip]
      simp only [Option.map_some, Nat.zero_add]
    · rw [hm.size_payload hfit he]
      exact hlt

/-- Where some payload comes to lie, its bytes stand. -/
theorem getElem?_assemble_eq_payload (hm : r.Moves entries name bytes.size old)
    (hdir : directoryEnd ≤ data.size) (hfit : ∀ e ∈ entries, e.endOffset ≤ data.size)
    (he : entries[i]? = some e) (hle : (placement old r.target bytes.size i e).offset ≤ p)
    (hlt : p < (placement old r.target bytes.size i e).endOffset) :
    (r.assemble data directoryEnd entries bytes)[p]? =
      (payload data r.target bytes i e)[p - (placement old r.target bytes.size i e).offset]? := by
  rw [hm.getElem?_assemble_of_covered hdir hfit he hle hlt]
  refine (hm.payload_eq_splice hfit he ⟨hle, ?_⟩).symm
  rw [hm.size_payload hfit he]
  exact hlt

section Free

variable (hm : r.Moves entries name bytes.size old)
  (hfit : ∀ e ∈ entries, e.endOffset ≤ data.size)
  (hfree : ∀ i e, entries[i]? = some e → ¬ ((placement old r.target bytes.size i e).offset ≤ p ∧
    p < (placement old r.target bytes.size i e).endOffset))

include hm hfit hfree

/-- Where no payload comes to lie, nothing is copied. -/
theorem getElem?_assemble_of_free :
    (r.assemble data directoryEnd entries bytes)[p]? =
      (Bytes.padTo (data.extract 0 (r.headLength data directoryEnd entries))
        (max r.totalLength directoryEnd))[p]? := by
  rw [assemble, copyPayloads_eq_writeAll, Bytes.getElem?_writeAll_of_not_covers]
  intro piece hpiece hc
  obtain ⟨j, d, hd, rfl⟩ := hm.exists_of_mem_pieces hpiece
  obtain ⟨hle, hlt⟩ := hc
  rw [hm.size_payload hfit hd] at hlt
  exact hfree j d hd ⟨hle, hlt⟩

/-- Where no payload comes to lie, the bytes in front of the payloads stay. -/
theorem getElem?_assemble_of_head (hdir : directoryEnd ≤ data.size)
    (hp : p < r.headLength data directoryEnd entries) :
    (r.assemble data directoryEnd entries bytes)[p]? = data[p]? := by
  have hhead := headLength_le r entries hdir
  rw [hm.getElem?_assemble_of_free hfit hfree,
    Bytes.getElem?_padTo_of_lt (by rw [Array.size_extract]; omega), Array.getElem?_extract,
    if_pos (by omega), Nat.zero_add]

/-- Between the payloads, and from the last one to the end, there are zero bytes. -/
theorem getElem?_assemble_of_gap (hp : r.headLength data directoryEnd entries ≤ p)
    (hlt : p < max r.totalLength directoryEnd) :
    (r.assemble data directoryEnd entries bytes)[p]? = some 0 := by
  rw [hm.getElem?_assemble_of_free hfit hfree]
  apply Bytes.getElem?_padTo_of_le _ hlt
  rw [Array.size_extract]
  omega

end Free

/-- In front of the replaced payload nothing changes, up to where the first payload was. -/
theorem getElem?_assemble_of_lt (hm : r.Moves entries name bytes.size old)
    (hfit : ∀ e ∈ entries, e.endOffset ≤ data.size) (hdir : directoryEnd ≤ data.size)
    (hp : p < old.offset) (hhead : p < r.headLength data directoryEnd entries) :
    (r.assemble data directoryEnd entries bytes)[p]? = data[p]? := by
  by_cases hcovered : ∃ i e, entries[i]? = some e ∧
      (placement old r.target bytes.size i e).offset ≤ p ∧
      p < (placement old r.target bytes.size i e).endOffset
  · obtain ⟨i, e, he, hle, hlt⟩ := hcovered
    rw [hm.getElem?_assemble_of_covered hdir hfit he hle hlt,
      Entry.getElem?_splice_before (hfit old hm.old_mem) hp]
  · exact hm.getElem?_assemble_of_head hfit (fun i e he hc => hcovered ⟨i, e, he, hc⟩) hdir hhead

/-- What lies before all payloads is in the part that is kept. -/
theorem lt_headLength (hm : r.Moves entries name bytes.size old)
    (hfit : ∀ e ∈ entries, e.endOffset ≤ data.size) (hp : ∀ e ∈ entries, p < e.offset) :
    p < r.headLength data directoryEnd entries := by
  have hold := hp old hm.old_mem
  have hend := hfit old hm.old_mem
  have htotal := endOffset_le_totalLength (hm.mem_placements hm.old_at)
  rw [placement_target] at htotal
  unfold Placement.endOffset at htotal
  unfold Entry.endOffset at hend
  have hfirst : p < (entries.map (·.offset)).min?.getD 0 := by
    cases hmin : (entries.map (·.offset)).min? with
    | none =>
      rw [List.min?_eq_none_iff, List.map_eq_nil_iff] at hmin
      have hmem := hm.old_mem
      rw [hmin] at hmem
      exact absurd hmem List.not_mem_nil
    | some m =>
      obtain ⟨e, he, rfl⟩ := List.mem_map.mp (List.min?_mem hmin)
      exact hp e he
  unfold headLength
  dsimp only at htotal ⊢
  omega

end Moves
end Relayout
end GameArchive
