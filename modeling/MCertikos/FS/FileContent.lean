/-
# A file is a byte string

The content of an inode is the string of its bytes up to its size.
-/

import MCertikos.FS.BlockOwnership

namespace MCertikos.FS

open Math

def splice {α : Type*} (content data : List α) (off : ℕ) : List α :=
  content.take off ++ data ++ content.drop (off + data.length)

section Splice

variable {α : Type*} {content data data' : List α} {off : ℕ}

@[simp] theorem splice_nil (content : List α) (off : ℕ) : splice content [] off = content := by
  simp [splice]

theorem length_splice (hoff : off ≤ content.length) :
    (splice content data off).length = max content.length (off + data.length) := by
  simp only [splice, List.length_append, List.length_take, List.length_drop]
  omega

theorem splice_splice (hoff : off ≤ content.length) :
    splice (splice content data off) data' (off + data.length) =
      splice content (data ++ data') off := by
  have hhead : (content.take off ++ data).length = off + data.length := by
    rw [List.length_append, List.length_take, Nat.min_eq_left hoff]
  have htake : (splice content data off).take (off + data.length) = content.take off ++ data := by
    rw [splice, ← hhead, List.take_left]
  have hdrop : (splice content data off).drop (off + data.length + data'.length) =
      content.drop (off + (data ++ data').length) := by
    rw [splice, ← hhead, List.drop_append, hhead, List.drop_drop, List.length_append,
      List.drop_eq_nil_of_le (by omega), List.nil_append]
    congr 1
    omega
  rw [splice, htake, hdrop, splice]
  simp only [List.append_assoc]

end Splice

def Fs.content (s : Fs) (d : Dinode) : List (BitVec 8) :=
  (List.range d.size.toNat).map (s.fileByte d)

section Content

variable {g : Geometry} {s s' : Fs} {ip ip' : Inode} {src : ℕ → BitVec 8}

@[simp] theorem length_content (s : Fs) (d : Dinode) : (s.content d).length = d.size.toNat := by
  simp [Fs.content]

theorem map_range_splice {α : Type*} (old new : ℕ → α) {size off len : ℕ} (hoff : off ≤ size) :
    ((List.range (max size (off + len))).map fun o =>
      if off ≤ o ∧ o < off + len then new (o - off) else old o) =
      splice ((List.range size).map old) ((List.range len).map new) off := by
  apply List.ext_getElem
  · simp [splice]
    omega
  · intro o ho ho'
    have hlt : o < max size (off + len) := by simpa using ho
    simp only [splice, List.getElem_map, List.getElem_range, List.getElem_append,
      List.length_append, List.length_take, List.length_map, List.length_range,
      List.getElem_take, List.getElem_drop, Nat.min_eq_left hoff]
    by_cases hbefore : o < off
    · rw [if_neg (by omega), dif_pos (by omega), dif_pos hbefore]
    · by_cases hin : o < off + len
      · rw [if_pos ⟨by omega, hin⟩, dif_pos hin, dif_neg hbefore]
      · rw [if_neg (by omega), dif_neg hin, Nat.add_sub_cancel' (by omega)]

theorem Overwritten.content_eq {off len : ℕ} (h : Overwritten g s ip src off len ip' s')
    (hoff : off ≤ ip.size.toNat) :
    s'.content ip'.toDinode = splice (s.content ip.toDinode) ((List.range len).map src) off := by
  rw [Fs.content, Fs.content, ← map_range_splice _ _ hoff, h.size_eq]
  refine List.map_congr_left fun o ho => ?_
  have hlt := List.mem_range.mp ho
  rw [← h.size_eq] at hlt
  exact h.bytes o hlt

theorem content_drop_take (s : Fs) (d : Dinode) (off len : ℕ) : ((s.content d).drop off).take len =
      (List.range (min len (d.size.toNat - off))).map fun j => s.fileByte d (off + j) := by
  apply List.ext_getElem
  · simp
  · intro j hj hj'
    simp [Fs.content]

variable {off len : BitVec 32}

theorem inodeRead_content (devsw : ℕ → Devsw) (h : Consistent g s) (hip : Synced g s ip)
    (hdev : ip.type ≠ tDev) (hoff : off.toNat ≤ ip.size.toNat)
    (hwrap : off.toNat + len.toNat < 2 ^ 32) : Meets (Pinned s)
      (fun r => r = (((((s.content ip.toDinode).drop off.toNat).take len.toNat).length : ℤ),
        ((s.content ip.toDinode).drop off.toNat).take len.toNat, ip, s))
      (s.inodeRead devsw ip off len) := by
  have hshaped := h.shaped_inode hip
  have hsize : ip.size.toNat ≤ maxfile * bsize := fileSlots_le.mp hshaped.count_le
  have hmax : maxfile * bsize < 2 ^ 31 := by decide
  have hcheck : ¬ (ip.size < off ∨ off + len < off) := by bv_omega
  unfold Fs.inodeRead
  rw [if_neg hdev, if_neg hcheck]
  have hclip : (if ip.size < off + len then ip.size - off else len).toNat =
      min len.toNat (ip.size.toNat - off.toNat) := by
    split <;> bv_omega
  generalize (if ip.size < off + len then ip.size - off else len) = n at hclip
  refine Meets.bind (readBlocks_meets hshaped (by omega)) ?_
  rintro _ rfl
  have hint : n.toInt = (n.toNat : ℤ) := BitVec.toInt_eq_toNat_of_lt (by omega)
  rw [content_drop_take, ← hclip, List.length_map, List.length_range]
  simp only [Nat.sub_zero, List.nil_append]
  exact congrArg (·, _, ip, s) hint

theorem Elsewhere.content_eq {i j : ℕ} (helse : Elsewhere g i s s') (h : Consistent g s)
    (halloc : InodeAllocated g s j) (hne : j ≠ i) :
    s'.content (s'.dinode j) = s.content (s.dinode j) := by
  have hdinode := helse.dinode_eq j halloc.1 hne
  unfold Fs.content
  rw [hdinode]
  refine List.map_congr_left fun o ho => ?_
  have hlt := div_lt_fileSlots (List.mem_range.mp ho)
  have hbyte := helse.fileByte_eq h halloc hne hlt
  rwa [hdinode] at hbyte

theorem WriteFits.toInt_eq (h : WriteFits ip off len) : len.toInt = (len.toNat : ℤ) := by
  have hmax : maxfile * bsize < 2 ^ 31 := by decide
  exact BitVec.toInt_eq_toNat_of_lt (by have := h.2; omega)

theorem WriteOutcome.cases {r : ℤ × Inode × Fs} (h : WriteOutcome g s ip src off len r)
    (hdev : ip.type ≠ tDev) : (¬ WriteFits ip off len ∧ r = (-1, ip, s)) ∨
      (r.1 = len.toInt ∧ Overwritten g s ip src off.toNat len.toNat r.2.1 r.2.2) := by
  obtain ⟨hsame, hrefused⟩ | hdone := h
  · obtain ⟨hvalue, hfits⟩ := hrefused hdev
    exact Or.inl ⟨hfits, Prod.ext hvalue hsame⟩
  · exact Or.inr hdone

theorem WriteOutcome.type_eq {r : ℤ × Inode × Fs} (h : WriteOutcome g s ip src off len r) :
    r.2.1.type = ip.type := by
  obtain ⟨heq, -⟩ | ⟨-, hover⟩ := h
  · rw [heq]
  · rw [hover.fields]

theorem WriteOutcome.free {r : ℤ × Inode × Fs} (h : WriteOutcome g s ip src off len r) :
    blocksFor (fileSlots r.2.1.size.toNat) + (freeBlocks g r.2.2).card =
      blocksFor (fileSlots ip.size.toNat) + (freeBlocks g s).card := by
  obtain ⟨heq, -⟩ | ⟨-, hover⟩ := h
  · rw [heq]
  · exact hover.free

/-- **Files behave as byte strings.** If the offset is within the content and the largest file has
room, and if enough blocks are free and the transaction has room for what the write logs,
`inode_write` returns the number of bytes, and the content has the data spliced in; otherwise it
returns -1 and nothing changes.  The contents of all other inodes stay, and `inode_read` then
returns the part of the new content that was asked for. -/
theorem inode_write_then_read (devsw : ℕ → Devsw) (src : ℕ → BitVec 8) {off len : BitVec 32}
    (h : Consistent g s) (hip : Synced g s ip) (hdev : ip.type ≠ tDev)
    (hfree : WriteFits ip off len → EnoughFree g s ip off len)
    (hroom : WriteFits ip off len → 0 < len.toNat → HasRoom s (writeCharge g s ip off len)) :
    ∃ r ip' s', s.inodeWrite devsw ip src off len = .ok (r, ip', s') ∧
      (WriteFits ip off len → r = (len.toNat : ℤ) ∧
        s'.content ip'.toDinode =
          splice (s.content ip.toDinode) ((List.range len.toNat).map src) off.toNat) ∧
      (¬ WriteFits ip off len → r = -1 ∧ ip' = ip ∧ s' = s) ∧
      (∀ j, InodeAllocated g s j → j ≠ ip.inum.toNat → s'.dinode j = s.dinode j ∧
        s'.content (s'.dinode j) = s.content (s.dinode j)) ∧
      (Consistent g s' ∧ Synced g s' ip') ∧
      ∀ off' len' : BitVec 32, s.log.sectors.card < nbuf → off'.toNat ≤ ip'.size.toNat →
        off'.toNat + len'.toNat < 2 ^ 32 → s'.inodeRead devsw ip' off' len' =
          .ok (((((s'.content ip'.toDinode).drop off'.toNat).take len'.toNat).length : ℤ),
            ((s'.content ip'.toDinode).drop off'.toNat).take len'.toNat, ip', s') := by
  obtain ⟨⟨r, ip', s'⟩, hwrite, ⟨⟨hcons, helse, hsynced⟩, -⟩, houtcome, hsectors⟩ :=
    (inodeWrite_bounded devsw src h hip fun _ => hfree).exists_ok fun e he =>
      (hroom he.1.2.1 he.1.2.2).not_allowed e he.2
  have hkind : ip'.type = ip.type := by
    obtain ⟨-, heq⟩ | ⟨-, hdone⟩ := houtcome.cases hdev
    · obtain ⟨-, hstate⟩ := Prod.mk.inj heq
      rw [(Prod.mk.inj hstate).1]
    · have htype : ip'.toDinode.type = _ := congrArg Dinode.type hdone.fields
      exact htype
  refine ⟨r, ip', s', hwrite, fun hfits => ?_, fun hnot => ?_, fun j hj hne => ?_,
    ⟨hcons, hsynced⟩, fun off' len' hpins hoff hwrap => ?_⟩
  · obtain ⟨hnot, -⟩ | ⟨hvalue, hdone⟩ := houtcome.cases hdev
    · exact absurd hfits hnot
    · exact ⟨hvalue.trans hfits.toInt_eq, hdone.content_eq hfits.1⟩
  · have hrefused := hwrite.symm.trans (inodeWrite_refused devsw src s hdev hnot)
    cases hrefused
    exact ⟨rfl, rfl, rfl⟩
  · exact ⟨helse.dinode_eq j hj.1 hne, helse.content_eq h hj hne⟩
  · have hpins' : s'.log.sectors.card < nbuf := by
      refine Nat.lt_of_le_of_lt hsectors ?_
      by_cases hlogs : WriteLogs ip off len
      · exact (hroom hlogs.2.1 hlogs.2.2).2.2
      · rw [writeCharge, if_pos hlogs]
        exact hpins
    obtain ⟨_, hread, rfl⟩ := (inodeRead_content devsw hcons hsynced
      (fun heq => hdev (hkind.symm.trans heq)) hoff hwrap).exists_ok fun e he =>
        absurd he.2 (Nat.not_le_of_lt hpins')
    exact hread

end Content

theorem inode_write_then_read_of_two_blocks :
    ∃ ip' s', oneFileFs.inodeWrite (fun _ => ⟨none, none⟩) oneFile (fun _ => 1) 0 600 =
        .ok (600, ip', s') ∧
      s'.content ip'.toDinode = List.replicate 600 1 ∧
      s'.inodeRead (fun _ => ⟨none, none⟩) ip' 510 100 =
        .ok (90, List.replicate 90 1, ip', s') := by
  have hroom : HasRoom oneFileFs (writeCharge smallGeometry oneFileFs oneFile 0 600) := by
    decide +kernel
  obtain ⟨r, ip', s', hwrite, hfits, -, -, -, hread⟩ := inode_write_then_read
    (fun _ => ⟨none, none⟩) (fun _ => 1) consistent_oneFileFs synced_oneFile (by decide)
    (fun _ => by decide +kernel) fun _ _ => hroom
  obtain ⟨rfl, hcontent⟩ := hfits ⟨by decide, by decide⟩
  have hempty : oneFileFs.content oneFile.toDinode = [] := rfl
  have hones : (List.range (600 : BitVec 32).toNat).map (fun _ => (1 : BitVec 8)) =
      List.replicate 600 1 := by
    rw [List.map_const', List.length_range]
    rfl
  rw [hempty, hones] at hcontent
  have hall : s'.content ip'.toDinode = List.replicate 600 1 := by
    rw [hcontent, splice, List.take_nil, List.drop_nil, List.nil_append, List.append_nil]
  have hsize : ip'.size.toNat = 600 := by
    rw [← length_content s', hall, List.length_replicate]
  have hpart := hread 510 100 (by decide +kernel) (by rw [hsize]; decide) (by decide)
  have hbytes : ((List.replicate 600 (1 : BitVec 8)).drop (510 : BitVec 32).toNat).take
      (100 : BitVec 32).toNat = List.replicate 90 1 := by
    decide +kernel
  rw [hall, hbytes] at hpart
  exact ⟨ip', s', hwrite, hall, hpart⟩

/-- **Free blocks are not enough for a write.** Nine blocks written to the empty file in one
transaction fit the largest file and the disk, but not the log: `log_write` panics. -/
theorem inodeWrite_of_nine_blocks_stops :
    Consistent smallGeometry oneFileFs ∧ Synced smallGeometry oneFileFs oneFile ∧
      oneFile.type ≠ tDev ∧ oneFileFs.log.busy = true ∧ WriteFits oneFile 0 4608 ∧
      EnoughFree smallGeometry oneFileFs oneFile 0 4608 ∧
      oneFileFs.inodeWrite (fun _ => ⟨none, none⟩) oneFile (fun _ => 1) 0 4608 =
        .error .tooBigTransaction := by
  refine ⟨consistent_oneFileFs, synced_oneFile, by decide, rfl, ⟨by decide, by decide⟩,
    by decide +kernel, ?_⟩
  exact eq_error_of_stopOf (by decide +kernel)

end MCertikos.FS
