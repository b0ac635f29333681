import GameArchive.Archive.Vfs3.Chunks
import GameArchive.Proofs.Regions
/-!
# Chunk tables by their bytes

A chunk table is read where the bytes are its length and then, for each list, its length in bytes
and its integers. Lists fill the table to its end, so none is left out and none runs over. Where no
table stands, reading tells whether the buffer ends too soon or which part of the table is no list.
-/
namespace GameArchive.Vfs3

variable {data : Bytes} {position stop : Nat}

/-- The bytes of the integers of a list. -/
def integersToBytes (list : List Int) : List UInt8 :=
  list.flatMap fun v => toLittleEndian 4 (ofSigned 4 v)

@[simp]
theorem length_integersToBytes (list : List Int) :
    (integersToBytes list).length = 4 * list.length := by
  simp only [integersToBytes, List.length_flatMap, length_toLittleEndian, List.map_const',
    List.sum_replicate_nat, Nat.mul_comm]

theorem integersAt_eq_ok_iff {count : Nat} {list : List Int} (hposition : position ≤ data.size) :
    integersAt data position count = .ok list ↔ list.length = count ∧
      (∀ v ∈ list, IsSigned 4 v) ∧ data.HoldsAt position (integersToBytes list) := by
  induction count generalizing position list with
  | zero =>
    rw [integersAt, Except.ok.injEq, List.length_eq_zero_iff]
    constructor
    · rintro rfl
      exact ⟨rfl, nofun, Bytes.holdsAt_nil.mpr hposition⟩
    · rintro ⟨rfl, -⟩
      rfl
  | succ count ih =>
    simp only [integersAt, bind_eq_ok, Bytes.signedWord_eq_ok_iff]
    constructor
    · rintro ⟨v, ⟨hv, hbytes⟩, others, hothers, h⟩
      cases h
      have hnext : position + 4 ≤ data.size := by simpa using hbytes.fits
      obtain ⟨rfl, hsigned, hrest⟩ := (ih hnext).mp hothers
      exact ⟨rfl, List.forall_mem_cons.mpr ⟨hv, hsigned⟩,
        Bytes.holdsAt_append.mpr ⟨hbytes, by rwa [length_toLittleEndian]⟩⟩
    · rintro ⟨hcount, hsigned, hbytes⟩
      obtain ⟨v, others, rfl⟩ := List.exists_cons_of_length_eq_add_one hcount
      obtain ⟨hv, hsigned⟩ := List.forall_mem_cons.mp hsigned
      obtain ⟨hfirst, hrest⟩ := Bytes.holdsAt_append.mp hbytes
      rw [length_toLittleEndian] at hrest
      have hnext : position + 4 ≤ data.size := by simpa using hfirst.fits
      exact ⟨v, ⟨hv, hfirst⟩, others, (ih hnext).mpr ⟨Nat.succ.inj hcount, hsigned, hrest⟩, rfl⟩

/-- The bytes of a list of chunks. -/
def chunksToBytes (list : List Int) : List UInt8 :=
  toLittleEndian 4 (4 * list.length) ++ integersToBytes list

theorem length_chunksToBytes (list : List Int) :
    (chunksToBytes list).length = 4 + 4 * list.length := by
  rw [chunksToBytes, List.length_append, length_toLittleEndian, length_integersToBytes]

/-- Whether a list can stand in a table. -/
structure IsChunkList (list : List Int) : Prop where
  length_lt : 4 * list.length < numberBound 4
  isSigned : ∀ v ∈ list, IsSigned 4 v

theorem listsAt_of_le (h : stop ≤ position) : listsAt data stop position = .ok [] := by
  rw [listsAt, if_neg (Nat.not_lt.mpr h)]

/-- Before the end is reached a list is read, behind its length in bytes, and then the others. -/
theorem listsAt_cases {lists : List (List Int)} (h : listsAt data stop position = .ok lists)
    (hlt : position < stop) : ∃ length list others, lists = list :: others ∧
      data.word position 4 = .ok length ∧ length % 4 = 0 ∧ position + 4 + length ≤ stop ∧
      integersAt data (position + 4) (length / 4) = .ok list ∧
      listsAt data stop (position + 4 + length) = .ok others := by
  rw [listsAt, if_pos hlt] at h
  split at h
  case isTrue => cases h
  case isFalse =>
    cases hlength : data.word position 4 with
    | error e => rw [hlength] at h; cases h
    | ok length =>
      rw [hlength] at h
      dsimp only at h
      split at h
      case isTrue => cases h
      case isFalse hfits =>
        obtain ⟨list, hlist, h⟩ := bind_eq_ok.mp h
        obtain ⟨others, hothers, h⟩ := bind_eq_ok.mp h
        cases h
        exact ⟨length, list, others, rfl, rfl, by omega, by omega, hlist, hothers⟩

/-- One list is read in front of the others, and they fill what is left behind it. -/
theorem listsAt_cons_eq_ok_iff {list : List Int} {others : List (List Int)}
    (hstop : stop ≤ data.size) : listsAt data stop position = .ok (list :: others) ↔
      IsChunkList list ∧ data.HoldsAt position (chunksToBytes list) ∧
        position + (chunksToBytes list).length ≤ stop ∧
        listsAt data stop (position + (chunksToBytes list).length) = .ok others := by
  rw [chunksToBytes, Bytes.holdsAt_append, List.length_append, length_toLittleEndian,
    length_integersToBytes, ← Nat.add_assoc]
  constructor
  · intro h
    have hlt : position < stop := by
      refine Nat.lt_of_not_le fun hle => ?_
      rw [listsAt_of_le hle] at h
      cases h
    obtain ⟨length, list, others, hcons, hlength, hwhole, hfits, hlist, hothers⟩ :=
      listsAt_cases h hlt
    cases hcons
    obtain ⟨hbound, hword⟩ := Bytes.word_eq_ok_iff.mp hlength
    obtain ⟨hcount, hsigned, hintegers⟩ := (integersAt_eq_ok_iff (by omega)).mp hlist
    obtain rfl : length = 4 * list.length := by omega
    exact ⟨⟨hbound, hsigned⟩, ⟨hword, hintegers⟩, hfits, hothers⟩
  · rintro ⟨hlist, ⟨hword, hintegers⟩, hfits, hothers⟩
    have hlength := Bytes.word_eq_ok_iff.mpr ⟨hlist.length_lt, hword⟩
    rw [listsAt, if_pos (by omega), if_neg (by omega), hlength]
    dsimp only
    rw [if_neg (by omega), hothers]
    refine bind_eq_ok.mpr ⟨list, (integersAt_eq_ok_iff (by omega)).mpr ⟨by omega, ?_⟩, rfl⟩
    exact ⟨hlist.isSigned, hintegers⟩

theorem listsAt_eq_nil_iff : listsAt data stop position = .ok [] ↔ stop ≤ position := by
  constructor
  · intro h
    refine Nat.le_of_not_lt fun hlt => ?_
    obtain ⟨_, _, _, hcons, -⟩ := listsAt_cases h hlt
    cases hcons
  · exact listsAt_of_le

/-- Lists are read exactly when their bytes are those from a position to the end. -/
theorem listsAt_eq_ok_iff {lists : List (List Int)} (hposition : position ≤ stop)
    (hstop : stop ≤ data.size) : listsAt data stop position = .ok lists ↔
      (∀ list ∈ lists, IsChunkList list) ∧ data.HoldsAt position (lists.flatMap chunksToBytes) ∧
        stop = position + (lists.flatMap chunksToBytes).length := by
  induction lists generalizing position with
  | nil =>
    rw [listsAt_eq_nil_iff]
    constructor
    · intro hle
      exact ⟨nofun, Bytes.holdsAt_nil.mpr (by omega), Nat.le_antisymm hle hposition⟩
    · rintro ⟨-, -, rfl⟩
      exact Nat.le_refl _
  | cons list others ih =>
    rw [listsAt_cons_eq_ok_iff hstop, List.forall_mem_cons, List.flatMap_cons, Bytes.holdsAt_append,
      List.length_append]
    constructor
    · rintro ⟨hlist, hbytes, hfits, hothers⟩
      obtain ⟨hlists, hrest, rfl⟩ := (ih hfits).mp hothers
      exact ⟨⟨hlist, hlists⟩, ⟨hbytes, hrest⟩, Nat.add_assoc _ _ _⟩
    · rintro ⟨⟨hlist, hlists⟩, ⟨hbytes, hrest⟩, rfl⟩
      have hfits : position + (chunksToBytes list).length ≤
          position + ((chunksToBytes list).length + (others.flatMap chunksToBytes).length) := by
        omega
      exact ⟨hlist, hbytes, hfits, (ih hfits).mpr ⟨hlists, hrest, (Nat.add_assoc _ _ _).symm⟩⟩

/-- Whether the bytes from a position to the end of a table are not those of lists. Behind lists
that are complete there are fewer bytes than the length of one takes, or a length that is not that
of whole integers or leads out of the table. -/
inductive IsBroken (data : Bytes) (stop : Nat) : (position : Nat) → Malformation → Prop where
  | headerCrossesEnd {position : Nat} (hlt : position < stop) (hcross : stop < position + 4) :
      IsBroken data stop position (.chunkHeaderCrossesEnd position stop)
  | listTooLong {position length : Nat} (hfits : position + 4 ≤ stop)
      (hlength : data.word position 4 = .ok length)
      (hbad : length % 4 ≠ 0 ∨ stop < position + 4 + length) :
      IsBroken data stop position (.chunkListTooLong (position + 4) length stop)
  | behind {position : Nat} {list : List Int} {cause : Malformation} (hlist : IsChunkList list)
      (hbytes : data.HoldsAt position (chunksToBytes list))
      (hrest : IsBroken data stop (position + (chunksToBytes list).length) cause) :
      IsBroken data stop position cause

theorem exists_integersAt {count : Nat} (h : position + 4 * count ≤ data.size) :
    ∃ list, integersAt data position count = .ok list := by
  induction count generalizing position with
  | zero => exact ⟨[], rfl⟩
  | succ count ih =>
    obtain ⟨n, hn⟩ : ∃ n, data.word position 4 = .ok n := Bytes.exists_word (by omega)
    obtain ⟨others, hothers⟩ : ∃ others, integersAt data (position + 4) count = .ok others :=
      ih (by omega)
    have hfirst : data.signedWord position 4 = .ok (toSigned 4 n) := map_eq_ok.mpr ⟨n, hn, rfl⟩
    exact ⟨_, bind_eq_ok.mpr ⟨_, hfirst, bind_eq_ok.mpr ⟨others, hothers, rfl⟩⟩⟩

/-- Lists are read to the end, or else up to where the table is broken. -/
theorem listsAt_ok_or_broken (hposition : position ≤ stop) (hstop : stop ≤ data.size) :
    (∃ lists, listsAt data stop position = .ok lists) ∨
      ∃ cause, listsAt data stop position = .error (.malformed cause) ∧
        IsBroken data stop position cause := by
  fun_induction listsAt data stop position with
  | case1 position hlt hcross => exact Or.inr ⟨_, rfl, .headerCrossesEnd hlt hcross⟩
  | case2 position hlt hfits e herror =>
    obtain ⟨n, hn⟩ : ∃ n, data.word position 4 = .ok n := Bytes.exists_word (by omega)
    cases herror.symm.trans hn
  | case3 position hlt hfits length hlength hbad =>
    exact Or.inr ⟨_, rfl, .listTooLong (by omega) hlength hbad⟩
  | case4 position hlt hfits length hlength hgood ih =>
    obtain ⟨list, hlist⟩ : ∃ list, integersAt data (position + 4) (length / 4) = .ok list :=
      exists_integersAt (by omega)
    obtain ⟨hbound, hword⟩ := Bytes.word_eq_ok_iff.mp hlength
    obtain ⟨hcount, hsigned, hintegers⟩ := (integersAt_eq_ok_iff (by omega)).mp hlist
    obtain rfl : length = 4 * list.length := by omega
    have hchunks : data.HoldsAt position (chunksToBytes list) :=
      Bytes.holdsAt_append.mpr ⟨hword, by rwa [length_toLittleEndian]⟩
    have hnext : position + 4 + 4 * list.length = position + (chunksToBytes list).length := by
      rw [length_chunksToBytes, Nat.add_assoc]
    rw [hlist]
    rcases ih (by omega) with ⟨others, hothers⟩ | ⟨cause, herror, hrest⟩
    · exact Or.inl ⟨list :: others, by rw [hothers]; rfl⟩
    · exact Or.inr ⟨cause, by rw [herror]; rfl, .behind ⟨hbound, hsigned⟩ hchunks (hnext ▸ hrest)⟩
  | case5 position hend => exact Or.inl ⟨[], rfl⟩

namespace ChunkTable

/-- The bytes of a chunk table. -/
def toBytes (t : ChunkTable) : List UInt8 :=
  toLittleEndian 4 (t.lists.flatMap chunksToBytes).length ++ t.lists.flatMap chunksToBytes

theorem parse_eq_ok_iff {t : ChunkTable} : parse data position = .ok t ↔
    (t.lists.flatMap chunksToBytes).length < numberBound 4 ∧ (∀ list ∈ t.lists, IsChunkList list) ∧
      data.HoldsAt position t.toBytes := by
  rw [toBytes, Bytes.holdsAt_append, length_toLittleEndian]
  simp only [parse, bind_eq_ok, Bytes.word_eq_ok_iff]
  constructor
  · rintro ⟨length, ⟨hbound, hword⟩, room, hroom, lists, hlists, h⟩
    cases h
    have hfits := (Bytes.slice_eq_ok.mp hroom).1
    obtain ⟨hall, hbytes, hlength⟩ := (listsAt_eq_ok_iff (by omega) hfits).mp hlists
    obtain rfl := Nat.add_left_cancel hlength
    exact ⟨hbound, hall, hword, hbytes⟩
  · rintro ⟨hbound, hall, hword, hbytes⟩
    exact ⟨_, ⟨hbound, hword⟩, _, Bytes.slice_of_le hbytes.fits, t.lists,
      (listsAt_eq_ok_iff (Nat.le_add_right _ _) hbytes.fits).mpr ⟨hall, hbytes, rfl⟩, rfl⟩

/-- Whether a chunk table stands at a position: the length of all its lists, and then each list
behind its own length. -/
structure IsAt (t : ChunkTable) (data : Bytes) (position : Nat) : Prop where
  length_lt : (t.lists.flatMap chunksToBytes).length < numberBound 4
  isChunkList : ∀ list ∈ t.lists, IsChunkList list
  holdsAt : data.HoldsAt position t.toBytes

theorem parse_eq_ok_iff_isAt {t : ChunkTable} :
    parse data position = .ok t ↔ t.IsAt data position := by
  rw [parse_eq_ok_iff]
  exact ⟨fun ⟨hlength, hlists, hbytes⟩ => ⟨hlength, hlists, hbytes⟩,
    fun h => ⟨h.length_lt, h.isChunkList, h.holdsAt⟩⟩

/-- A table that the buffer has room for is read, unless it is broken. -/
theorem parse_ok_or_broken {length : Nat} (hlength : data.word position 4 = .ok length)
    (hfits : position + 4 + length ≤ data.size) : (∃ t, parse data position = .ok t) ∨
      ∃ cause, parse data position = .error (.malformed cause) ∧
        IsBroken data (position + 4 + length) (position + 4) cause := by
  have hparse : parse data position =
      (listsAt data (position + 4 + length) (position + 4)).map ChunkTable.mk := by
    simp only [parse, hlength, Bytes.slice_of_le hfits, bind, Except.bind]
    cases listsAt data (position + 4 + length) (position + 4) <;> rfl
  rw [hparse]
  rcases listsAt_ok_or_broken (Nat.le_add_right _ _) hfits with
    ⟨lists, hlists⟩ | ⟨cause, herror, hbroken⟩
  · exact Or.inl ⟨⟨lists⟩, by rw [hlists]; rfl⟩
  · exact Or.inr ⟨cause, by rw [herror]; rfl, hbroken⟩

/-- Reading finds a table exactly where one stands, and there is one there at most. Otherwise the
length or the bytes that it asks for lie beyond the buffer, or the table is broken. -/
theorem parse_accepts_tables (data : Bytes) (position : Nat) :
    (∀ t, parse data position = .ok t ↔ t.IsAt data position) ∧
    (∀ t u : ChunkTable, t.IsAt data position → u.IsAt data position → t = u) ∧
    (data.size < position + 4 →
      parse data position = .error (.outOfBounds position 4 data.size)) ∧
    ∀ length, data.word position 4 = .ok length →
      (data.size < position + 4 + length →
        parse data position = .error (.outOfBounds (position + 4) length data.size)) ∧
      (position + 4 + length ≤ data.size → (∀ t : ChunkTable, ¬ t.IsAt data position) →
        ∃ cause, parse data position = .error (.malformed cause) ∧
          IsBroken data (position + 4 + length) (position + 4) cause) := by
  refine ⟨fun t => parse_eq_ok_iff_isAt, ?_, ?_, fun length hlength => ⟨?_, ?_⟩⟩
  · intro t u ht hu
    have hsame := (parse_eq_ok_iff_isAt.mpr ht).symm.trans (parse_eq_ok_iff_isAt.mpr hu)
    exact Except.ok.inj hsame
  · intro hend
    rw [parse, Bytes.word, Bytes.slice_of_lt hend]
    rfl
  · intro hend
    simp only [parse, hlength, Bytes.slice_of_lt hend, bind, Except.bind]
  · intro hfits hnone
    refine (parse_ok_or_broken hlength hfits).resolve_left ?_
    rintro ⟨t, ht⟩
    exact hnone t (parse_eq_ok_iff_isAt.mp ht)

/-- Two lists, the second one empty. -/
def twoLists : ChunkTable := ⟨[[3, -2], []]⟩

/-- The bytes of these lists, with a byte behind them that is counted in. -/
def twoListsAndByte : Bytes :=
  (toLittleEndian 4 17 ++ twoLists.lists.flatMap chunksToBytes ++ [7]).toArray

theorem parse_accepts_tables_twoLists :
    twoLists.IsAt twoLists.toBytes.toArray 0 ∧
    parse twoLists.toBytes.toArray 0 = .ok twoLists ∧
    (∀ t : ChunkTable, ¬ t.IsAt twoListsAndByte 0) ∧
    (∃ cause, parse twoListsAndByte 0 = .error (.malformed cause) ∧
      IsBroken twoListsAndByte 21 4 cause) ∧
    parse (twoListsAndByte.extract 0 20) 0 = .error (.outOfBounds 4 17 20) ∧
    parse twoListsAndByte 18 = .error (.outOfBounds 18 4 21) := by
  have hat : twoLists.IsAt twoLists.toBytes.toArray 0 := by
    refine ⟨by decide, List.forall_mem_cons.mpr ⟨⟨by decide, by decide⟩, ?_⟩,
      Bytes.holdsAt_toArray _⟩
    exact List.forall_mem_singleton.mpr ⟨by decide, nofun⟩
  have hnone : ∀ t : ChunkTable, ¬ t.IsAt twoListsAndByte 0 := by
    intro t ht
    have hread : parse twoListsAndByte 0 =
        .error (.malformed (.chunkHeaderCrossesEnd 20 21)) := by cbv
    cases hread.symm.trans (((parse_accepts_tables _ _).1 t).mpr ht)
  have hlength : twoListsAndByte.word 0 4 = .ok 17 := by cbv
  have hshort : Bytes.word (twoListsAndByte.extract 0 20) 0 4 = .ok 17 := by cbv
  refine ⟨hat, ((parse_accepts_tables _ _).1 _).mpr hat, hnone, ?_, ?_, ?_⟩
  · exact ((parse_accepts_tables _ _).2.2.2 17 hlength).2 (by decide) hnone
  · exact ((parse_accepts_tables _ _).2.2.2 17 hshort).1 (by decide)
  · exact (parse_accepts_tables _ _).2.2.1 (by decide)

end ChunkTable
end GameArchive.Vfs3
