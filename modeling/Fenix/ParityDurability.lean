import Fenix.GroupHistory
import Fenix.ParityRecovery

namespace Fenix.ParityMember

open DataMember (recovering_one)

variable {n : Nat} {ms ms' : Fin n → DataMember} {f : Fin n} {ts : Int} {snaps after : Fin n → IMRSnapshot}
  {protectedBy : List DataSubset} {elmSize dataBytes : Nat} {s : IMRSnapshot} {rest : List IMRSnapshot}

/-- A rank whose chunks make up its data, with no byte more. -/
def Longer (dataBytes nPartners rank : Nat) : Prop :=
  dataBytes % nPartners = 0 ∨ rank ≤ dataBytes % nPartners

section Chunks

/-- The chunks of a rank with a longer parity are where they are whatever room there is after its data. -/
theorem chunkStart_longer {nPartners rank size i : Nat} (hpos : 0 < nPartners) (hr : rank ≤ nPartners)
    (hlong : Longer dataBytes nPartners rank) (hs : dataBytes ≤ size) (hi : i ≤ nPartners) (hown : i ≠ rank) :
    chunkStart (parityBytes dataBytes nPartners) size rank i = chunksBefore (parityBytes dataBytes nPartners) rank i ∧
      chunksBefore (parityBytes dataBytes nPartners) rank i + parityBytes dataBytes nPartners i ≤ dataBytes := by
  have hall := chunksBefore_all dataBytes hpos hr
  rw [if_pos (show dataBytes % nPartners = 0 ∨ rank ≤ dataBytes % nPartners from hlong)] at hall
  have hle := chunksBefore_mono (parityBytes dataBytes nPartners) rank (Nat.succ_le_succ hi)
  rw [hall] at hle
  refine ⟨chunkStart_of_le hown (Nat.le_trans hle hs), ?_⟩
  rw [← chunksBefore_succ _ hown]
  exact hle

/-- A rank that is restored contributes to the parities as it did. -/
theorem contribution_restored (hn : 2 ≤ n) (henc : Encoded snaps dataBytes) (hres : Restores snaps after f dataBytes)
    (hsize : (after f).buf.size = dataBytes) (hrange : dataBytes ≤ 2147483647) (hlens : ∀ k i, (after k).parityBytes i = parityBytes dataBytes (n - 1) i) (hlong : Longer dataBytes (n - 1) f)
    (i : Fin n) {b : Nat} (hb : b < parityBytes dataBytes (n - 1) i) :
    contribution after i b = contribution snaps i b := by
  funext k
  unfold contribution
  by_cases hik : i = k
  · rw [if_pos hik, if_pos hik]
  · rw [if_neg hik, if_neg hik, funext (hlens k), funext (henc.parityBytes k)]
    by_cases hk : k = f
    · subst hk
      have hown : i.val ≠ k.val := fun he => hik (Fin.ext he)
      obtain ⟨hstart, hend⟩ := chunkStart_longer (by omega) (by omega) hlong (henc.fits_dataSize k) (by omega) hown
      have hfit : dataBytes ≤ (after k).dataSize := by rw [IMRSnapshot.dataSize_of_le (hsize ▸ hrange), hsize]
      obtain ⟨hstart', _⟩ := chunkStart_longer (by omega) (by omega) hlong hfit (by omega) hown
      rw [hstart, hstart']
      exact hres.data _ (by omega)
    · rw [(hres.others k hk).1, IMRSnapshot.dataSize_congr (hres.others k hk).1]

/-- The parities of a cohort are those of its data after a rank with a longer one is restored. -/
theorem restored_encoded (hn : 2 ≤ n) (henc : Encoded snaps dataBytes) (hres : Restores snaps after f dataBytes)
    (hsize : (after f).buf.size = dataBytes) (hrange : dataBytes ≤ 2147483647) (hlens : ∀ k i, (after k).parityBytes i = parityBytes dataBytes (n - 1) i) (hlong : Longer dataBytes (n - 1) f) :
    Encoded after dataBytes := by
  refine ⟨fun k => ?_, hlens, fun k => ?_, fun i b hb => ?_⟩
  · by_cases hk : k = f
    · rw [hk, IMRSnapshot.intSize, hsize, castInt_eq_iff.mpr hrange]
    · rw [IMRSnapshot.intSize_congr (hres.others k hk).1]
      exact henc.fits k
  · by_cases hk : k = f
    · rw [hk, hres.paritySize, henc.paritySize]
    · rw [(hres.others k hk).2]
      exact henc.paritySize k
  · rw [contribution_restored hn henc hres hsize hrange hlens hlong i hb, ← henc.parity i b hb]
    by_cases hi : i = f
    · rw [hi]
      rw [hi, ← henc.paritySize f] at hb
      exact hres.parity b hb
    · rw [(hres.others i hi).2]

end Chunks

section Rebuild

theorem write_subsets (s : IMRSnapshot) (len : Nat) (g : Nat → UInt8) (i : ParityInput) :
    (s.write len g i).stagedSubsets = s.stagedSubsets ∧ (s.write len g i).protectedSubsets = s.protectedSubsets := by
  cases i with
  | parity => exact ⟨rfl, rfl⟩
  | data start => exact ⟨rfl, rfl⟩

/-- The ranks of a cohort know the same subsets after a rank is rebuilt. -/
theorem rebuild_agree (hag : Agree snaps (List.replicate n ∅) protectedBy elmSize) (he : s.elmSize = elmSize)
    (h : rebuild f (lose f s snaps) = .ok after) : Agree after (List.replicate n ∅) protectedBy elmSize := by
  obtain ⟨sender, hne, rfl⟩ := rebuild_cases h
  have hprep := prepareRepair_agree hag hne he
  refine ⟨fun k => ?_, fun k => ?_, fun k => ?_, hprep.stagedLength, hprep.protectedLength⟩
  · exact (reduceChunks_keeps (f := fun s => s.stagedSubsets) (fun s len g i => (write_subsets s len g i).1)
      _ _ k).trans (hprep.stagedSubsets k)
  · exact (reduceChunks_keeps (f := fun s => s.protectedSubsets) (fun s len g i => (write_subsets s len g i).2)
      _ _ k).trans (hprep.protectedSubsets k)
  · exact (reduceChunks_keeps (f := fun s => s.elmSize) write_elmSize _ _ k).trans (hprep.elmSize k)

/-- A rank with a longer parity is rebuilt, and the cohort is protected as before. -/
theorem rebuild_committed (hn : 3 ≤ n) (h : Committed snaps protectedBy elmSize) (he : s.elmSize = elmSize)
    (hlong : Longer (cohortBytes (List.replicate n ∅) protectedBy elmSize) (n - 1) f) :
    ∃ after, rebuild f (lose f s snaps) = .ok after ∧ Committed after protectedBy elmSize ∧
      Restores snaps after f (cohortBytes (List.replicate n ∅) protectedBy elmSize) := by
  obtain ⟨after, hafter, hsize, hiff⟩ := rebuild_restores hn h f he
  have hres := hiff.mpr (hlong.elim Or.inl fun hle => Or.inr (Or.inl hle))
  have hag := rebuild_agree h.agree he hafter
  refine ⟨after, hafter, ⟨hag, h.inRange, ?_⟩, hres⟩
  exact restored_encoded (by omega) h.encoded hres hsize h.inRange
    (fun k i => congrFun (parityBytes_eq hag h.inRange k) i) hlong

end Rebuild

section Repair

/-- The repair of a timestamp that one rank lacks is the rebuilding from the snapshots of the others. -/
theorem repairTimestamp_missing (hothers : ∀ k, k ≠ f → (ms k).commitSnapshots.find? ts = some (snaps k))
    (hnone : (ms f).commitSnapshots.find? ts = none) (hs : (ms f).availSnapshots = s :: rest) :
    repairTimestamp ts ms =
      (rebuild f (lose f s snaps)).map fun rebuilt k => (ms k).putBack ts (rebuilt k) := by
  have hrep : ∀ k, (ms k).repairSnapshot ts = some (lose f s snaps k) := by
    intro k
    unfold DataMember.repairSnapshot
    by_cases hk : k = f
    · rw [hk, hnone, hs, lose_own]
      rfl
    · rw [hothers k hk, lose_other hk]
  have hfound : (fun k => ((ms k).commitSnapshots.find? ts).isSome) = fun k => decide (k ≠ f) := by
    funext k
    by_cases hk : k = f
    · rw [hk, hnone]
      simp
    · rw [hothers k hk]
      simp [hk]
  have hall : ∀ k, ((ms k).repairSnapshot ts).isSome := fun k => by
    rw [hrep k]
    rfl
  unfold repairTimestamp
  rw [dif_pos hall, hfound, recovering_one]
  have hget : (fun k => ((ms k).repairSnapshot ts).get (hall k)) = lose f s snaps := by
    funext k
    simp only [hrep k, Option.get_some]
  simp only [hget]
  cases rebuild f (lose f s snaps) with
  | error e => rfl
  | ok rebuilt => rfl

theorem putBack_avail {m : DataMember} (hnone : m.commitSnapshots.find? ts = none) (s : IMRSnapshot) :
    (m.putBack ts s).availSnapshots = m.availSnapshots.tail := by
  unfold DataMember.putBack
  rw [hnone]

/-- A rank that lacks timestamps gets them back, one after the other, as long as it has snapshots to put them in. -/
theorem repairTimestamps_missing {stamps : List Int} {snaps : Int → Fin n → IMRSnapshot}
    {protectedBy : Int → List DataSubset} (hn : 3 ≤ n) (hnodup : stamps.Nodup)
    (hothers : ∀ ts ∈ stamps, ∀ k, k ≠ f → (ms k).commitSnapshots.find? ts = some (snaps ts k))
    (hnone : ∀ ts ∈ stamps, (ms f).commitSnapshots.find? ts = none)
    (hroom : stamps.length ≤ (ms f).availSnapshots.length) (hsize : ∀ s ∈ (ms f).availSnapshots, s.elmSize = elmSize)
    (h : ∀ ts ∈ stamps, Committed (snaps ts) (protectedBy ts) elmSize)
    (hlong : ∀ ts ∈ stamps, Longer (cohortBytes (List.replicate n ∅) (protectedBy ts) elmSize) (n - 1) f) :
    ∃ ms', DataMember.repairTimestamps repairTimestamp stamps ms = .ok ms' ∧
      ∀ ts ∈ stamps, ∃ after : Fin n → IMRSnapshot, (∀ k, (ms' k).commitSnapshots.find? ts = some (after k)) ∧
        Committed after (protectedBy ts) elmSize ∧
        Restores (snaps ts) after f (cohortBytes (List.replicate n ∅) (protectedBy ts) elmSize) := by
  induction stamps generalizing ms with
  | nil => exact ⟨ms, rfl, fun _ hts => absurd hts List.not_mem_nil⟩
  | cons ts rest ih =>
    obtain ⟨hnotin, hnodup⟩ := List.nodup_cons.mp hnodup
    obtain ⟨s, spares, hs⟩ : ∃ s spares, (ms f).availSnapshots = s :: spares :=
      List.exists_cons_of_length_pos (Nat.lt_of_lt_of_le (Nat.succ_pos _) hroom)
    obtain ⟨after, hafter, hcommitted, hres⟩ := rebuild_committed hn (h ts List.mem_cons_self)
      (hsize s (hs ▸ List.mem_cons_self)) (hlong ts List.mem_cons_self)
    have hmid := repairTimestamp_missing (hothers ts List.mem_cons_self) (hnone ts List.mem_cons_self) hs
    rw [hafter] at hmid
    change repairTimestamp ts ms = .ok fun k => (ms k).putBack ts (after k) at hmid
    have hfound : ∀ k, ((ms k).putBack ts (after k)).commitSnapshots.find? ts =
        some { after k with timestamp := ts } := by
      intro k
      rw [DataMember.putBack_find?, if_pos rfl]
      intro hsome
      rw [(rebuild_fields hafter _).1]
      by_cases hk : k = f
      · rw [hk, hnone ts List.mem_cons_self] at hsome
        cases hsome
      · rw [lose_other hk]
        exact (IndexedSet.find?_some (hothers ts List.mem_cons_self k hk)).2
    have hkept : ∀ t ∈ rest, ∀ k, ((ms k).putBack ts (after k)).commitSnapshots.find? t =
        (ms k).commitSnapshots.find? t := fun t ht =>
      repairTimestamp_find?_of_ne hmid fun he => hnotin (he ▸ ht)
    have htail := putBack_avail (hnone ts List.mem_cons_self) (after f)
    obtain ⟨ms', hms', hrest⟩ := ih hnodup
      (fun t ht k hk => (hkept t ht k).trans (hothers t (List.mem_cons_of_mem ts ht) k hk))
      (fun t ht => (hkept t ht f).trans (hnone t (List.mem_cons_of_mem ts ht)))
      (by
        rw [htail, List.length_tail]
        exact Nat.le_sub_of_add_le hroom)
      (fun s hmem => hsize s (List.mem_of_mem_tail (htail ▸ hmem)))
      (fun t ht => h t (List.mem_cons_of_mem ts ht)) fun t ht => hlong t (List.mem_cons_of_mem ts ht)
    refine ⟨ms', Except.bind_eq_ok_iff.mpr ⟨_, hmid, hms'⟩, fun t ht => ?_⟩
    rcases List.mem_cons.mp ht with rfl | ht
    · refine ⟨fun k => { after k with timestamp := t }, fun k => ?_, ?_, ?_⟩
      · rw [repairTimestamps_find?_of_not_mem hms' hnotin]
        exact hfound k
      · exact ⟨⟨hcommitted.agree.stagedSubsets, hcommitted.agree.protectedSubsets, hcommitted.agree.elmSize,
          hcommitted.agree.stagedLength, hcommitted.agree.protectedLength⟩, hcommitted.inRange,
          hcommitted.encoded.fits, hcommitted.encoded.parityBytes, hcommitted.encoded.paritySize,
          hcommitted.encoded.parity⟩
      · exact ⟨hres.data, hres.size, hres.paritySize, hres.parity, hres.others⟩
    · exact hrest t ht

end Repair

section Losses

/-- A cohort has the data and the parities that it had. -/
structure Same (was is : Fin n → IMRSnapshot) (dataBytes : Nat) : Prop where
  data : ∀ k, ∀ x < dataBytes, (is k).buf.bytes x = (was k).buf.bytes x
  paritySize : ∀ k, (is k).partner.buf.size = (was k).partner.buf.size
  parity : ∀ k, ∀ b < (was k).partner.buf.size, (is k).partner.buf.bytes b = (was k).partner.buf.bytes b

theorem Same.refl (was : Fin n → IMRSnapshot) (dataBytes : Nat) : Same was was dataBytes :=
  ⟨fun _ _ _ => rfl, fun _ => rfl, fun _ _ _ => rfl⟩

theorem Same.restores (h : Same snaps after dataBytes) {final : Fin n → IMRSnapshot}
    (hres : Restores after final f dataBytes) : Same snaps final dataBytes := by
  refine ⟨fun k x hx => ?_, fun k => ?_, fun k b hb => ?_⟩
  all_goals by_cases hk : k = f
  · exact (hk ▸ hres.data x hx).trans (h.data k x hx)
  · rw [(hres.others k hk).1]
    exact h.data k x hx
  · exact (hk ▸ hres.paritySize).trans (h.paritySize k)
  · rw [(hres.others k hk).2]
    exact h.paritySize k
  · subst hk
    rw [hres.parity b (by rw [h.paritySize]; exact hb)]
    exact h.parity k b hb
  · rw [(hres.others k hk).2]
    exact h.parity k b hb

/-- One rank of a cohort after another is lost, makes its member anew and has it repaired. -/
def lossRun (depth elmSize elmCount : Nat) (stamps : List Int) :
    List (Fin n × (Nat → Nat → UInt8)) → (Fin n → DataMember) → Except Abort (Fin n → DataMember)
  | [], ms => .ok ms
  | (f, junk) :: losses, ms => do
    let ms ← repair stamps
      (Function.update ms f (DataMember.create (.imr .parity) depth f n elmSize elmCount junk))
    lossRun depth elmSize elmCount stamps losses ms

theorem create_avail {depth rank size elmSize elmCount : Nat} {junk : Nat → Nat → UInt8}
    (h : s ∈ (DataMember.create (.imr .parity) depth rank size elmSize elmCount junk).availSnapshots) :
    s.elmSize = elmSize := by
  unfold DataMember.create at h
  rcases List.mem_append.mp h with h | h
  · exact List.eq_of_mem_replicate h ▸ rfl
  · obtain ⟨s', hs', rfl⟩ := List.mem_map.mp h
    exact List.eq_of_mem_replicate hs' ▸ rfl

/-- A cohort has its data and parities of a timestamp as they were, and is protected. -/
def Held (was : Int → Fin n → IMRSnapshot) (protectedBy : Int → List DataSubset) (elmSize : Nat)
    (ms : Fin n → DataMember) (ts : Int) : Prop :=
  ∃ is : Fin n → IMRSnapshot, (∀ k, (ms k).commitSnapshots.find? ts = some (is k)) ∧
    Committed is (protectedBy ts) elmSize ∧
    Same (was ts) is (cohortBytes (List.replicate n ∅) (protectedBy ts) elmSize)

variable {was : Int → Fin n → IMRSnapshot} {protectedBy : Int → List DataSubset} {stamps : List Int}
  {depth elmCount : Nat}

/-- A rank that has lost all its snapshots has each of them back when its member is repaired. -/
theorem repair_held (hn : 3 ≤ n) (hnodup : stamps.Nodup) (hdepth : stamps.length ≤ depth + 1)
    (h : ∀ ts ∈ stamps, Held was protectedBy elmSize ms ts) (junk : Nat → Nat → UInt8)
    (hlong : ∀ ts ∈ stamps, Longer (cohortBytes (List.replicate n ∅) (protectedBy ts) elmSize) (n - 1) f) :
    ∃ ms', repair stamps (Function.update ms f
        (DataMember.create (.imr .parity) depth f n elmSize elmCount junk)) = .ok ms' ∧
      ∀ ts ∈ stamps, Held was protectedBy elmSize ms' ts := by
  let fresh := DataMember.create (.imr .parity) depth f n elmSize elmCount junk
  have hown : Function.update ms f fresh f = fresh := Function.update_self f fresh ms
  have hroom : stamps.length ≤ fresh.availSnapshots.length := by
    change _ ≤ (List.replicate (depth + 1) _ ++ List.map _ (List.replicate (depth + 1) _)).length
    rw [List.length_append, List.length_replicate]
    exact Nat.le_add_right_of_le hdepth
  have hnow : ∀ ts, ∃ now : Fin n → IMRSnapshot, ts ∈ stamps →
      (∀ k, (ms k).commitSnapshots.find? ts = some (now k)) ∧ Committed now (protectedBy ts) elmSize ∧
        Same (was ts) now (cohortBytes (List.replicate n ∅) (protectedBy ts) elmSize) := by
    intro ts
    by_cases hts : ts ∈ stamps
    · obtain ⟨now, hheld⟩ := h ts hts
      exact ⟨now, fun _ => hheld⟩
    · exact ⟨was ts, fun hno => absurd hno hts⟩
  choose now hnow using hnow
  let reinited : Fin n → DataMember := fun k => (Function.update ms f fresh k).reinitStage k n
  have hothers : ∀ ts ∈ stamps, ∀ k, k ≠ f → (reinited k).commitSnapshots.find? ts = some (now ts k) := by
    intro ts hts k hk
    change (Function.update ms f fresh k).commitSnapshots.find? ts = _
    rw [Function.update_of_ne hk]
    exact (hnow ts hts).1 k
  have hnone : ∀ ts ∈ stamps, (reinited f).commitSnapshots.find? ts = none := by
    intro ts _
    change (Function.update ms f fresh f).commitSnapshots.find? ts = none
    rw [hown]
    rfl
  have havail : (reinited f).availSnapshots = fresh.availSnapshots := by
    change (Function.update ms f fresh f).availSnapshots = _
    rw [hown]
  obtain ⟨ms', hms', hafter⟩ := repairTimestamps_missing hn hnodup hothers hnone (havail ▸ hroom)
    (fun s hs => create_avail (havail ▸ hs)) (fun ts hts => (hnow ts hts).2.1) hlong
  refine ⟨ms', hms', fun ts hts => ?_⟩
  obtain ⟨after, hfound, hcommitted, hres⟩ := hafter ts hts
  exact ⟨after, hfound, hcommitted, (hnow ts hts).2.2.restores hres⟩

/-- However many ranks are lost, one after the other, the cohort gets through with the data and the parities of every
timestamp as they were committed, if those that are lost have a longer parity. All have if the data is divided evenly. -/
theorem losses_restored (hn : 3 ≤ n) (hnodup : stamps.Nodup) (hdepth : stamps.length ≤ depth + 1)
    (hfound : ∀ ts ∈ stamps, ∀ k, (ms k).commitSnapshots.find? ts = some (was ts k))
    (h : ∀ ts ∈ stamps, Committed (was ts) (protectedBy ts) elmSize) (losses : List (Fin n × (Nat → Nat → UInt8)))
    (hlong : ∀ ts ∈ stamps, ∀ loss ∈ losses,
      Longer (cohortBytes (List.replicate n ∅) (protectedBy ts) elmSize) (n - 1) loss.1) :
    ∃ ms', lossRun depth elmSize elmCount stamps losses ms = .ok ms' ∧
      ∀ ts ∈ stamps, Held was protectedBy elmSize ms' ts := by
  have hheld : ∀ ts ∈ stamps, Held was protectedBy elmSize ms ts := fun ts hts =>
    ⟨was ts, hfound ts hts, h ts hts, .refl (was ts) _⟩
  clear hfound h
  induction losses generalizing ms with
  | nil => exact ⟨ms, rfl, hheld⟩
  | cons loss losses ih =>
    obtain ⟨f, junk⟩ := loss
    obtain ⟨mid, hmid, hafter⟩ := repair_held hn hnodup hdepth hheld junk
      fun ts hts => hlong ts hts (f, junk) List.mem_cons_self
    obtain ⟨ms', hms', hfinal⟩ := ih (fun ts hts loss hmem => hlong ts hts loss (List.mem_cons_of_mem _ hmem)) hafter
    exact ⟨ms', Except.bind_eq_ok_iff.mpr ⟨mid, hmid, hms'⟩, hfinal⟩

/-- Of three ranks with one byte each the first two are lost, one after the other. -/
theorem losses_restored_pair : ∃ (was : Fin 3 → IMRSnapshot) (committed final : Fin 3 → DataMember),
    lossRun 0 1 0 [0] [(0, fun _ _ => 0), (1, fun _ _ => 0)] committed = .ok final ∧
      Held (fun _ => was) (fun _ => List.zipWith (· + ·) [∅, ∅, ∅] [⟨{0}⟩, ⟨{0}⟩, ⟨{0}⟩]) 1 final 0 := by
  obtain ⟨_, committed, _, _, was, hwas, hcommitted, _⟩ := protect_commit (n := 3) (by decide)
    (oneByte_agree 1) (by decide) (fun _ => rfl) (oneByte_new 1) (fun _ _ => 0) (fun _ _ => 0)
  have hfound : ∀ ts ∈ [(0 : Int)], ∀ k, (committed k).commitSnapshots.find? ts = some (was k) := by
    intro ts hts k
    rw [List.mem_singleton.mp hts]
    exact hwas k
  let losses : List (Fin 3 × (Nat → Nat → UInt8)) := [(0, fun _ _ => 0), (1, fun _ _ => 0)]
  let subsets : List DataSubset := List.zipWith (· + ·) [∅, ∅, ∅] [⟨{0}⟩, ⟨{0}⟩, ⟨{0}⟩]
  have hlong : ∀ ts ∈ [(0 : Int)], ∀ loss ∈ losses,
      Longer (cohortBytes (List.replicate 3 ∅) subsets 1) (3 - 1) loss.1 := by
    intro ts _ loss hloss
    refine Or.inr ?_
    rcases List.mem_cons.mp hloss with rfl | hloss
    · decide
    · rw [List.mem_singleton.mp hloss]
      decide
  have hrestored : ∃ final, lossRun 0 1 0 [0] losses committed = .ok final ∧
      ∀ ts ∈ [(0 : Int)], Held (fun _ => was) (fun _ => subsets) 1 final ts :=
    losses_restored (Nat.le_refl 3) (List.nodup_singleton 0) (Nat.le_refl 1) hfound (fun _ _ => hcommitted) losses hlong
  obtain ⟨final, hfinal, hheld⟩ := hrestored
  exact ⟨was, committed, final, hfinal, hheld 0 List.mem_cons_self⟩

end Losses

end Fenix.ParityMember
