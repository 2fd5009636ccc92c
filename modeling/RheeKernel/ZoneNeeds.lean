import RheeKernel.FileArrays

namespace RheeKernel

/-- The places that the blocks from `m` on, `k` of them, are reached through. -/
def zonePlaces (m k : Nat) : Finset ZonePos := ((List.range' m k).flatMap zonePath).toFinset

/-- The zones that these blocks of an inode still need, tables included. -/
def ZoneFs.needs (s : ZoneFs) (i m k : Nat) : Nat := ((zonePlaces m k).filter fun p => s.zoneNr i p = 0).card

variable {d d' : Device} {ip ip' : ZoneInode} {s s' t : ZoneFs} {i j k l m n r z : Nat} {p q : ZonePos} {ps : List ZonePos}

theorem zonePlaces_succ : zonePlaces m (k + 1) = (zonePath m).toFinset ∪ zonePlaces (m + 1) k := by
  unfold zonePlaces
  rw [List.range'_succ, List.flatMap_cons, List.toFinset_append]

theorem zonePath_nodup : (zonePath n).Nodup := by
  unfold zonePath
  split
  next => simp
  next =>
    split
    next => simp
    next => simp

theorem missingOf_card (hps : ps.Nodup) : (ps.toFinset.filter fun p => s.zoneNr i p = 0).card = missingOf s i ps := by
  have hlist : (ps.toFinset.filter fun p => s.zoneNr i p = 0) = (ps.filter fun p => s.zoneNr i p = 0).toFinset := by
    ext p
    simp
  rw [hlist, List.toFinset_card_of_nodup (hps.filter _), ← List.countP_eq_length_filter]
  rfl

/-- A path whose last place is there is there as a whole. -/
theorem IsPath.present (h : IsPath p ps) (hlast : s.zoneNr i ((p :: ps).getLast (by simp)) ≠ 0) :
    ∀ q ∈ p :: ps, s.zoneNr i q ≠ 0 := by
  induction ps generalizing p with
  | nil =>
    intro q hq
    cases List.mem_singleton.mp hq
    exact hlast
  | cons r rs ih =>
    intro q hq
    rcases List.mem_cons.mp hq with rfl | hq
    · exact fun hzero => hlast (h.last_zero hzero)
    · refine ih h.2.2 ?_ q hq
      rw [List.getLast_cons (by simp)] at hlast
      exact hlast

/-- A filled path has taken one zone for each place that was missing. -/
theorem fillPath_count (h : s.Sound) (hatt : Attached s.dev (s.inode i) p) (hps : IsPath p ps)
    (hfill : fillPath (p :: ps) s.dev (s.inode i) = some (d', ip', r)) (hr : r ≠ 0) :
    d'.freeZones + missingOf s i (p :: ps) = s.dev.freeZones := by
  induction ps generalizing s p with
  | nil =>
    change fillAt s.dev (s.inode i) p = some (d', ip', r) at hfill
    rw [missingOf_cons]
    by_cases hempty : s.zoneNr i p = 0
    · rcases Nat.eq_zero_or_pos s.dev.freeZones with hfull | hroom
      · obtain ⟨d₁, hat, _⟩ := h.fillAt_full hatt hempty hfull
        rw [hat] at hfill
        cases hfill
        exact absurd rfl hr
      · obtain ⟨z, d₁, ip₁, hat, hf⟩ := h.fillAt_room hatt hempty hroom
        rw [hat] at hfill
        cases hfill
        rw [if_pos hempty]
        have := hf.count
        simp only [missingOf, List.countP_nil]
        omega
    · rw [fillAt_present hempty] at hfill
      cases hfill
      rw [if_neg hempty]
      rfl
  | cons q qs ih =>
    rw [missingOf_cons]
    by_cases hempty : s.zoneNr i p = 0
    · rcases Nat.eq_zero_or_pos s.dev.freeZones with hfull | hroom
      · obtain ⟨d₁, hat, _⟩ := h.fillAt_full hatt hempty hfull
        rw [fillPath_stop hat] at hfill
        cases hfill
        exact absurd rfl hr
      · obtain ⟨z, d₁, ip₁, hat, hf⟩ := h.fillAt_room hatt hempty hroom
        have hz := hf.ne_zero h
        rw [fillPath_go hat hz] at hfill
        have hrest := @ih ⟨d₁, Function.update s.inode i ip₁⟩ q (hf.sound h hempty)
          (hf.attached h hps.1 hps.2.1) hps.2.2
          (by dsimp only; rw [Function.update_self]; exact hfill)
        rw [hf.missing hps] at hrest
        have hcount := hf.count
        rw [if_pos hempty]
        dsimp only at hrest hcount
        omega
    · rw [fillPath_go (fillAt_present hempty) hempty] at hfill
      rw [if_neg hempty]
      exact ih h (attached_child hps.1 hps.2.1 hempty) hps.2.2 hfill

/-- A block that has been created took its missing zones from the free ones; the other blocks need what they needed less
the tables that they share with it. -/
theorem ZoneFs.Sound.createBlock_needs (h : s.Sound) (hn : n < maxFileBlocks)
    (hcreate : RheeKernel.createBlock s.dev (s.inode i) n = some (d', ip', r)) (hr : r ≠ 0) :
    d'.freeZones + s.missing i n = s.dev.freeZones ∧
    s.needs i n (k + 1) = s.missing i n + ZoneFs.needs ⟨d', Function.update s.inode i ip'⟩ i (n + 1) k := by
  obtain ⟨p, ps, hpath, hps, hatt⟩ := zonePath_isPath hn
  obtain ⟨_, _, _, hcreate', hspec⟩ := @ZoneFs.Sound.createBlock s i n h hn
  rw [hcreate] at hcreate'
  cases hcreate'
  have hfill := hcreate
  rw [createBlock_eq hn, hpath] at hfill
  unfold ZoneFs.missing
  refine ⟨?_, ?_⟩
  · rw [hpath]
    exact fillPath_count h (hatt _ _) hps hfill hr
  · generalize hs' : (⟨d', Function.update s.inode i ip'⟩ : ZoneFs) = s' at hspec ⊢
    have hthere : ∀ q ∈ zonePath n, s'.zoneNr i q ≠ 0 := by
      have hlast := @zonePath_last n (by rw [hpath]; simp)
      simp only [hpath] at hlast
      rw [hpath]
      refine hps.present ?_
      rw [hlast, hspec.last]
      exact hr
    have hsplit : (zonePlaces n (k + 1)).filter (fun q => s.zoneNr i q = 0) =
        (zonePath n).toFinset.filter (fun q => s.zoneNr i q = 0) ∪
          (zonePlaces (n + 1) k).filter fun q => s'.zoneNr i q = 0 := by
      rw [zonePlaces_succ, Finset.filter_union]
      ext q
      simp only [Finset.mem_union, Finset.mem_filter, List.mem_toFinset]
      by_cases hq : q ∈ zonePath n
      · have := hthere q hq
        tauto
      · have hsame : s'.zoneNr i q = s.zoneNr i q := by
          by_contra hne
          exact hq (hspec.grows.only i q hne).2
        rw [hsame]
    unfold ZoneFs.needs
    rw [hsplit, Finset.card_union_of_disjoint, missingOf_card zonePath_nodup]
    rw [Finset.disjoint_left]
    intro q hq hq'
    simp only [Finset.mem_filter, List.mem_toFinset] at hq hq'
    exact hthere q hq.1 hq'.2

theorem ZoneFs.missing_le_needs : s.missing i n ≤ s.needs i n (k + 1) := by
  unfold ZoneFs.missing ZoneFs.needs
  rw [← missingOf_card zonePath_nodup, zonePlaces_succ]
  exact Finset.card_le_card (Finset.filter_subset_filter _ Finset.subset_union_left)

theorem ZoneFs.needs_zero : s.needs i m 0 = 0 := rfl

theorem ZoneFs.needs_congr (h : ∀ j q, s'.zoneNr j q = s.zoneNr j q) : s'.needs i m k = s.needs i m k := by
  unfold ZoneFs.needs
  simp only [h]

/-- A store moves no zone and frees none. -/
theorem ZoneFs.Sound.store_needs {vs : List UInt8} {o : Nat} (h : s.Sound) (hp : p.IsData) (hne : s.zoneNr j p ≠ 0) :
    ZoneFs.needs ⟨s.dev.putBytes (s.zoneNr j p) o vs, s.inode⟩ i m k = s.needs i m k ∧
    (s.dev.putBytes (s.zoneNr j p) o vs).freeZones = s.dev.freeZones := by
  have hsame := @Device.putBytes_same s.dev (s.zoneNr j p) o vs
  refine ⟨needs_congr (h.store_nr hp hne hsame), ?_⟩
  unfold Device.freeZones
  rw [hsame.first, hsame.nzones, bits_congr hsame.blocks, hsame.zmap]

variable {fs fs' : FileSys} {pos fuel : Nat} {data : List UInt8}

/-- A write beyond the last block that an inode can name runs into the limit unless it runs out of zones before. -/
theorem FileSys.fileWriteLoop_none (h : fs.zones.Sound) (hfuel : data.length ≤ fuel) (hne : data ≠ [])
    (hover : maxSize < pos + data.length) :
    fileWriteLoop i fuel fs pos data n = none ↔
      fs.zones.needs i (pos / blockSize) (maxFileBlocks - pos / blockSize) ≤ fs.zones.dev.freeZones := by
  induction fuel generalizing fs pos data n with
  | zero => exact absurd (List.length_eq_zero_iff.mp (Nat.le_zero.mp hfuel)) hne
  | succ fuel ih =>
    unfold fileWriteLoop
    rw [if_neg hne]
    have hlen : 0 < data.length := List.length_pos_of_ne_nil hne
    by_cases hn : pos / blockSize < maxFileBlocks
    · obtain ⟨d, ip, block, hcreate, hspec⟩ := @ZoneFs.Sound.createBlock fs.zones i (pos / blockSize) h hn
      obtain ⟨rest, hrest⟩ : ∃ rest, maxFileBlocks - pos / blockSize = rest + 1 :=
        ⟨maxFileBlocks - pos / blockSize - 1, by omega⟩
      rw [hcreate, hrest]
      dsimp only [Option.bind_some]
      by_cases hblock : block = 0
      · rw [if_pos hblock]
        subst hblock
        have hlt : ¬ fs.zones.missing i (pos / blockSize) ≤ fs.zones.dev.freeZones := fun hle => (hspec.room hle).1 rfl
        have hle := @ZoneFs.missing_le_needs fs.zones i rest (pos / blockSize)
        exact ⟨fun hc => (Option.some_ne_none _ hc).elim, fun hc => absurd (hle.trans hc) hlt⟩
      · rw [if_neg hblock]
        generalize hc : min (blockSize - pos % blockSize) data.length = c
        have hsize : pos % blockSize < blockSize := Nat.mod_lt _ (by decide)
        have hchunk : c = blockSize - pos % blockSize := by
          unfold maxSize blockSize at *
          omega
        have htake : (data.take c).length = c := by
          rw [List.length_take]
          omega
        have hround := @stored_round fs i pos (data.take c) d ip block h hn hcreate hblock
          (List.ne_nil_of_length_pos (by omega)) (by omega)
        rw [htake] at hround
        have hnext : (pos + c) / blockSize = pos / blockSize + 1 := by
          unfold blockSize at *
          omega
        have hdrop : data.drop c ≠ [] := by
          refine List.ne_nil_of_length_pos ?_
          rw [List.length_drop]
          unfold maxSize blockSize at *
          omega
        obtain ⟨hfree, hneeds⟩ := h.createBlock_needs (k := rest) hn hcreate hblock
        have hat : ZoneFs.zoneNr ⟨d, Function.update fs.zones.inode i ip⟩ i (blockPos (pos / blockSize)) = block := hspec.last
        have hstore := @ZoneFs.Sound.store_needs ⟨d, Function.update fs.zones.inode i ip⟩ i i rest (pos / blockSize + 1)
          (blockPos (pos / blockSize)) (data.take c) (pos % blockSize) hspec.sound blockPos_isData (by rw [hat]; exact hblock)
        rw [hat] at hstore
        rw [@ih (n + c) _ (pos + c) (data.drop c) hround.sound (by rw [List.length_drop]; omega) hdrop
          (by rw [List.length_drop]; unfold maxSize blockSize at *; omega), hnext,
          show maxFileBlocks - (pos / blockSize + 1) = rest by omega]
        dsimp only
        rw [hstore.1, hstore.2, hneeds, ← hfree]
        dsimp only
        omega
    · have hnone : createBlock fs.zones.dev (fs.zones.inode i) (pos / blockSize : Nat) = none := by
        unfold createBlock bmapCore
        rw [if_neg (by omega), if_pos (by omega)]
      rw [hnone, show maxFileBlocks - pos / blockSize = 0 by omega, ZoneFs.needs_zero]
      exact ⟨fun _ => Nat.zero_le _, fun _ => rfl⟩

end RheeKernel
