import GameArchive.Proofs.Codec.Lzs
import GameArchive.Proofs.Flat.Replace
import GameArchive.Workspace
/-!
# Replacing inside a nested archive

A START.DAT archive stands packed in an archive around it. To replace one of its payloads, it is
patched, packed again and put back: two replacements with a codec between them. What was put in is
what comes out again through both levels, and nothing else changes on either.
-/
namespace GameArchive.FlatArchive

variable {f g : FlatFormat} {a b : FlatArchive f}

/-- Which START.DAT archives stand in which archives, and how they are packed there. -/
inductive Nests : FlatFormat → FlatFormat → Packing → Prop where
  | pspfs (variant : PspfsVariant) : Nests (.pspfs variant) (.startDat .dsarc) .ykcmp
  | nispack (extension : String) : Nests .nispack (.startDat .offsetOnly) (.lzs extension)

/-- Whether the entries stay in order, and all but the first called `name` keep their bytes. -/
def KeepsOthers (a b : FlatArchive f) (name : String) : Prop :=
  b.entries.map (·.name) = a.entries.map (·.name) ∧
    b.entries.map (·.index) = a.entries.map (·.index) ∧
    ∀ (i : Nat) (e e' : Entry), i ≠ a.position name → a.entries[i]? = some e →
      b.entries[i]? = some e' → ∃ bytes, e.read a.data = .ok bytes ∧ e'.read b.data = .ok bytes

theorem Replaced.keepsOthers {s : Replacement} (h : Replaced a b s) (ha : a.IsOpen) :
    a.KeepsOthers b s.name := by
  refine ⟨h.names_eq, h.indices_eq, ?_⟩
  intro i e e' hi he he'
  have hread := Entry.read_of_le (ha.endOffset_le e (List.mem_of_getElem? he))
  refine ⟨_, hread, ?_⟩
  rw [h.read_eq he he', if_neg hi, hread]

theorem Nests.ne_endOffset_outer {packing : Packing} (h : Nests f g packing) :
    f ≠ .startDat .endOffset := by
  cases h <;> simp

theorem Nests.ne_endOffset_inner {packing : Packing} (h : Nests f g packing) :
    g ≠ .startDat .endOffset := by
  cases h <;> simp

/-- The archive around it unpacks what was packed for it: by its first bytes, or by its name. -/
theorem Nests.decompress_eq {packing : Packing} {data packed : Bytes} {e : Entry}
    (h : Nests f g packing) (hname : f = .nispack → hasLzsExtension e.name = true)
    (hpack : packing.pack data = .ok packed) (hread : e.read a.data = .ok packed) :
    a.decompress e = .ok data := by
  cases h with
  | pspfs variant =>
    obtain ⟨hstream, hunpack⟩ := Codec.Ykcmp.decompress_of_compress hpack
    rw [decompress, hread]
    simp only [bind, Except.bind, hstream, if_true]
    exact hunpack
  | nispack extension =>
    have hunpack := Codec.Lzs.decompress_of_compress hpack
    rw [decompress, hread]
    simp only [bind, Except.bind, hname rfl, if_true]
    exact hunpack

/-- A payload of the inner archive is replaced, the inner archive packed and put in the outer one:
the outer archive opens and unpacks to the inner one, that opens and reads the new bytes, and on
both levels all other payloads stay. It does not matter how the inner archive stood there before.
All payloads lie behind the directories. -/
theorem nested_replacement_reads_back {packing : Packing} {outer outer' : FlatArchive f}
    {inner inner' : FlatArchive g} {outerData innerData packed bytes : Bytes} {key name : String}
    {n m : Nat} (hnests : Nests f g packing) (hkey : f = .nispack → hasLzsExtension key = true)
    (houter : ofBytes f outerData = .ok outer) (houterBehind : outer.IsBehindDirectory)
    (hinner : ofBytes g innerData = .ok inner) (hinnerBehind : inner.IsBehindDirectory)
    (hpatch : inner.replace name bytes m = .ok inner')
    (hpack : packing.pack inner'.data = .ok packed)
    (hput : outer.replace key packed n = .ok outer') :
    ofBytes f outer'.data = .ok outer' ∧
      (∃ e, outer'.find key = .ok e ∧ outer'.decompress e = .ok inner'.data) ∧
      ofBytes g inner'.data = .ok inner' ∧ inner'.readName name = .ok bytes ∧
      inner.KeepsOthers inner' name ∧ outer.KeepsOthers outer' key := by
  obtain ⟨ha, rfl⟩ := isOpen_of_ofBytes houter
  obtain ⟨hb, rfl⟩ := isOpen_of_ofBytes hinner
  obtain ⟨houter', hputs⟩ := replaced_of_replace (s := ⟨key, packed, n⟩) ha houterBehind
    (fun hf => absurd hf hnests.ne_endOffset_outer) hput
  obtain ⟨hinner', hpatches⟩ := replaced_of_replace (s := ⟨name, bytes, m⟩) hb hinnerBehind
    (fun hg => absurd hg hnests.ne_endOffset_inner) hpatch
  obtain ⟨e, hfind, hread⟩ := hputs.exists_find ha hput
  obtain ⟨d, hfound, hback⟩ := hpatches.exists_find hb hpatch
  refine ⟨houter', ⟨e, hfind, ?_⟩, hinner', ?_, hpatches.keepsOthers hb, hputs.keepsOthers ha⟩
  · apply hnests.decompress_eq _ hpack hread
    rw [name_of_find_eq_ok hfind]
    exact hkey
  · rw [readName, hfound]
    exact hback

/-- An archive of one payload that states its start. -/
def oneStart : Bytes :=
  ([1, 0, 0, 0] ++ [0x24, 0, 0, 0, 0x77] ++ List.replicate 27 0 ++ [1, 2, 3] : List UInt8).toArray

/-- An archive around `oneStart`, which is packed in it under the name `k.lzs`. -/
def packedStart : Bytes :=
  (FlatFormat.nispackMagic ++ [0, 0, 0, 0, 1, 0, 0, 0] ++ [0x6B, 0x2E, 0x6C, 0x7A, 0x73] ++
    List.replicate 27 0 ++ [0x3C, 0, 0, 0, 0x37, 0, 0, 0, 0, 0, 0, 0] ++
    [0, 0, 0, 0, 0x27, 0, 0, 0, 0x33, 0, 0, 0, 4, 0, 0, 0]).toArray ++ oneStart

theorem nested_replacement_reads_back_packedStart :
    ∃ (outer outer' : FlatArchive .nispack) (inner inner' : FlatArchive (.startDat .offsetOnly)),
      ofBytes .nispack packedStart = .ok outer ∧ outer.IsBehindDirectory ∧
      (outer.find "k.lzs" >>= outer.decompress) = .ok oneStart ∧
      ofBytes (.startDat .offsetOnly) oneStart = .ok inner ∧ inner.IsBehindDirectory ∧
      inner.replace "w" #[9, 8, 7, 6] 0 = .ok inner' ∧
      (∃ packed, (Packing.lzs "").pack inner'.data = .ok packed ∧
        outer.replace "k.lzs" packed 0 = .ok outer') ∧
      (∃ e, outer'.find "k.lzs" = .ok e ∧ outer'.decompress e = .ok inner'.data) ∧
      inner'.readName "w" = .ok #[9, 8, 7, 6] := by
  have hrun : ((ofBytes .nispack packedStart).toOption.any fun outer =>
      decide outer.IsBehindDirectory &&
      ((outer.find "k.lzs" >>= outer.decompress).toOption.any fun stored => stored == oneStart) &&
      (ofBytes (.startDat .offsetOnly) oneStart).toOption.any fun inner =>
        decide inner.IsBehindDirectory &&
        (inner.replace "w" #[9, 8, 7, 6] 0).toOption.any fun inner' =>
          ((Packing.lzs "").pack inner'.data).toOption.any fun packed =>
            (outer.replace "k.lzs" packed 0).toOption.isSome) = true := by
    decide +kernel
  obtain ⟨outer, houter, hcheck⟩ := exists_ok_of_any hrun
  simp only [Bool.and_eq_true, decide_eq_true_eq] at hcheck
  obtain ⟨⟨houterBehind, hunpack⟩, hinner⟩ := hcheck
  obtain ⟨stored, hstored, heq⟩ := exists_ok_of_any hunpack
  obtain rfl := beq_iff_eq.mp heq
  obtain ⟨inner, hinner, hcheck⟩ := exists_ok_of_any hinner
  obtain ⟨hinnerBehind, hpatch⟩ := Bool.and_eq_true_iff.mp hcheck
  obtain ⟨inner', hpatch, hpack⟩ := exists_ok_of_any hpatch
  obtain ⟨packed, hpack, hput⟩ := exists_ok_of_any hpack
  rw [← Option.any_true] at hput
  obtain ⟨outer', hput, -⟩ := exists_ok_of_any hput
  obtain ⟨-, hback, -, hread, -⟩ := nested_replacement_reads_back (.nispack "") (fun _ => by decide)
    houter houterBehind hinner (of_decide_eq_true hinnerBehind) hpatch hpack hput
  exact ⟨outer, outer', inner, inner', houter, houterBehind, hstored, hinner,
    of_decide_eq_true hinnerBehind, hpatch, ⟨packed, hpack, hput⟩, hback, hread⟩

end GameArchive.FlatArchive
