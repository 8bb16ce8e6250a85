import Fenix.GroupHistory
import Fenix.LatestRecovery

namespace Fenix

namespace DataMember

variable {m m' : DataMember} {listed : Finset Int} {ts t : Int}

/-- The timestamps listed by a group next to those of a member and its snapshots for reuse. -/
def ledger (listed : Finset Int) (m : DataMember) : Ledger Int := ⟨listed, m.timestamps, m.availSnapshots.length⟩

theorem card_timestamps (m : DataMember) : m.timestamps.card = m.commitSnapshots.entries.length := by
  unfold timestamps
  rw [List.toFinset_card_of_nodup, List.length_map]
  exact List.pairwise_map.mpr (m.commitSnapshots.sorted.imp Int.ne_of_lt)

theorem mem_timestamps_entries : t ∈ m.timestamps ↔ ∃ s ∈ m.commitSnapshots, s.timestamp = t := by
  unfold timestamps
  rw [List.mem_toFinset, List.mem_map]
  rfl

theorem snapshotDelete_timestamps (m : DataMember) (ts : Int) :
    (m.snapshotDelete ts).timestamps = m.timestamps.erase ts := by
  ext t
  rw [mem_timestamps, snapshotDelete_find?, Finset.mem_erase, mem_timestamps]
  by_cases ht : t = ts
  · simp [ht]
  · simp [ht]

theorem ledger_snapshotDelete (m : DataMember) (listed : Finset Int) (ts : Int) :
    (m.snapshotDelete ts).ledger (listed.erase ts) = (m.ledger listed).erase ts := by
  unfold ledger Ledger.erase
  rw [snapshotDelete_timestamps]
  congr 1
  dsimp only
  unfold snapshotDelete Pool.release
  dsimp only [withPool, pool]
  cases hf : m.commitSnapshots.find? ts with
  | none =>
    have hn : ts ∉ m.timestamps := by
      rw [mem_timestamps, hf]
      exact nofun
    rw [Finset.erase_eq_of_notMem hn, Nat.sub_self]
    rfl
  | some s =>
    have hin : ts ∈ m.timestamps := by
      rw [mem_timestamps, hf]
      rfl
    have hpos : 0 < m.timestamps.card := Finset.card_pos.mpr ⟨ts, hin⟩
    rw [Finset.card_erase_of_mem hin]
    change m.availSnapshots.length + 1 = _
    omega

theorem cleanup_timestamps (m : DataMember) (valid : Finset Int) :
    (m.cleanupTimestamps valid).timestamps = m.timestamps ∩ valid := by
  ext t
  rw [mem_timestamps, cleanup_find?, Finset.mem_inter, mem_timestamps, and_comm]

theorem ledger_cleanup (m : DataMember) (listed valid : Finset Int) :
    (m.cleanupTimestamps valid).ledger valid = (m.ledger listed).restrict valid := by
  unfold ledger Ledger.restrict
  rw [← cleanup_timestamps]
  congr 1
  rw [card_timestamps, card_timestamps]
  have hsplit := List.length_eq_length_filter_add (l := m.commitSnapshots.entries)
    fun s => decide (s.timestamp ∈ valid)
  have hneg : (m.commitSnapshots.entries.filter fun s => decide (s.timestamp ∉ valid)) =
      m.commitSnapshots.entries.filter fun s => !decide (s.timestamp ∈ valid) := by
    simp only [decide_not]
  change (((m.commitSnapshots.entries.filter fun s => decide (s.timestamp ∉ valid)).map IMRSnapshot.reset).reverse ++
    m.availSnapshots).length = m.availSnapshots.length + (m.commitSnapshots.entries.length -
      (m.commitSnapshots.entries.filter fun s => decide (s.timestamp ∈ valid)).length)
  rw [List.length_append, List.length_reverse, List.length_map, hneg]
  omega

theorem restage_timestamps (m : DataMember) (rank size : Nat) (junk partnerJunk : Nat → UInt8) :
    (m.restage rank size junk partnerJunk).timestamps = m.timestamps := by
  unfold timestamps
  rw [restage_commitSnapshots]

theorem restage_availSnapshots (m : DataMember) (rank size : Nat) (junk partnerJunk : Nat → UInt8) :
    (m.restage rank size junk partnerJunk).availSnapshots.length = m.availSnapshots.length - 1 :=
  (congrArg List.length (m.pool.next_spare _)).trans List.length_tail

@[simp] theorem snapshotDelete_depth (m : DataMember) (ts : Int) : (m.snapshotDelete ts).depth = m.depth := rfl

@[simp] theorem trim_depth (m : DataMember) : m.trim.depth = m.depth := rfl

@[simp] theorem restage_depth (m : DataMember) (rank size : Nat) (junk partnerJunk : Nat → UInt8) :
    (m.restage rank size junk partnerJunk).depth = m.depth := rfl

/-- A member that holds too much gives up its oldest snapshot. -/
theorem ledger_trim (m : DataMember) (listed : Finset Int) : m.trim.ledger listed =
    if m.depth + 1 < m.timestamps.card then
      ⟨listed, eraseOldest m.timestamps, m.availSnapshots.length + 1⟩
    else m.ledger listed := by
  rw [card_timestamps]
  rcases m.pool.trim_cases IMRSnapshot.reset (m.depth + 1) with ⟨hle, htrim⟩ | ⟨oldest, rest, h, hlt, htrim, _⟩
  · have hsame : m.trim = m := congrArg m.withPool htrim
    rw [hsame]
    exact (if_neg (Nat.not_lt.mpr hle)).symm
  · have hdelete : m.trim = m.snapshotDelete oldest.timestamp := congrArg m.withPool htrim
    change m.commitSnapshots.entries = oldest :: rest at h
    rw [hdelete]
    refine Eq.trans ?_ (if_pos hlt).symm
    have hmem : oldest.timestamp ∈ m.timestamps := by
      refine mem_timestamps_entries.mpr ⟨oldest, ?_, rfl⟩
      rw [IndexedSet.mem_def, h]
      exact List.mem_cons_self
    have hleast : ∀ t ∈ m.timestamps, oldest.timestamp ≤ t := by
      intro t ht
      obtain ⟨s, hs, rfl⟩ := mem_timestamps_entries.mp ht
      have hsorted := m.commitSnapshots.sorted
      rw [h] at hsorted
      rw [IndexedSet.mem_def, h] at hs
      rcases List.mem_cons.mp hs with rfl | hs
      · exact Int.le_refl _
      · exact Int.le_of_lt ((List.pairwise_cons.mp hsorted).1 s hs)
    have herase : m.timestamps.erase oldest.timestamp = eraseOldest m.timestamps := by
      ext t
      rw [Finset.mem_erase, mem_eraseOldest, and_comm]
      refine and_congr_right fun ht => ?_
      constructor
      · intro hne
        have hle := hleast t ht
        exact ⟨_, hmem, by omega⟩
      · rintro ⟨y, hy, hlt⟩ rfl
        have hle := hleast y hy
        omega
    have hspare := congrArg Ledger.spare (ledger_snapshotDelete m listed oldest.timestamp)
    have hpos : 0 < m.timestamps.card := Finset.card_pos.mpr ⟨_, hmem⟩
    change (m.snapshotDelete oldest.timestamp).availSnapshots.length = m.availSnapshots.length +
      (m.timestamps.card - (m.timestamps.erase oldest.timestamp).card) at hspare
    rw [Finset.card_erase_of_mem hmem] at hspare
    unfold ledger
    rw [snapshotDelete_timestamps, herase]
    congr 1
    omega

/-- A commit of a member is a commit of its ledger. -/
theorem ledger_commit {rank size : Nat} {junk partnerJunk : Nat → UInt8} (hnew : ∀ t ∈ m.timestamps, t < ts)
    (h : m.commit rank size ts junk partnerJunk = .ok m') (listed : Finset Int) :
    m'.ledger (Ledger.addListed (m.depth + 1) ts listed) = (m.ledger listed).commit (m.depth + 1) ts ∧
      m'.depth = m.depth := by
  unfold commit at h
  split at h
  next =>
    cases Except.ok.inj h
    refine ⟨?_, by rw [restage_depth, trim_depth]⟩
    set committed := { m with
      commitSnapshots := m.commitSnapshots.insert { m.stageSnapshot with timestamp := ts } } with hc
    have hins : committed.timestamps = insert ts m.timestamps := by
      ext t
      have hkey : ∀ s ∈ m.commitSnapshots, s.timestamp ≠ ts :=
        fun s hs => Int.ne_of_lt (hnew _ (mem_timestamps_entries.mpr ⟨s, hs, rfl⟩))
      rw [Finset.mem_insert, mem_timestamps, mem_timestamps, hc, IndexedSet.find?_insert hkey]
      by_cases ht : ts = t
      · simp [ht]
      · simp [ht, Ne.symm ht]
    have htrim := ledger_trim committed (Ledger.addListed (m.depth + 1) ts listed)
    rw [hins] at htrim
    unfold ledger at htrim ⊢
    rw [restage_timestamps, restage_availSnapshots]
    unfold Ledger.commit Ledger.addHeld
    change _ = if m.depth + 1 < _ then _ else _ at htrim
    dsimp only
    split at htrim
    next hlt =>
      injection htrim with _ hheld hspare
      rw [hheld, hspare, if_pos hlt, card_eraseOldest]
      congr 1
      change m.availSnapshots.length + 1 - 1 = _
      omega
    next hlt =>
      injection htrim with _ hheld hspare
      rw [hheld, hspare, if_neg hlt, hins, Nat.sub_self, Nat.add_zero]
      rfl
  next => cases h

theorem putBack_timestamps {s : IMRSnapshot} (hs : (m.commitSnapshots.find? ts).isSome → s.timestamp = ts) :
    (m.putBack ts s).timestamps = insert ts m.timestamps := by
  ext t
  rw [mem_timestamps, putBack_find? hs, Finset.mem_insert, mem_timestamps]
  by_cases ht : t = ts
  · simp [ht]
  · simp [ht]

theorem ledger_putBack {s : IMRSnapshot} (hs : (m.commitSnapshots.find? ts).isSome → s.timestamp = ts)
    (listed : Finset Int) : (m.putBack ts s).ledger listed = (m.ledger listed).mend ts := by
  unfold ledger Ledger.mend
  rw [putBack_timestamps hs]
  congr 1
  dsimp only
  unfold putBack
  cases hf : m.commitSnapshots.find? ts with
  | some s =>
    have hin : ts ∈ m.timestamps := by
      rw [mem_timestamps, hf]
      rfl
    rw [Finset.insert_eq_of_mem hin, Nat.sub_self]
    rfl
  | none =>
    have hn : ts ∉ m.timestamps := by
      rw [mem_timestamps, hf]
      exact nofun
    rw [Finset.card_insert_of_notMem hn, Nat.add_sub_cancel_left]
    exact List.length_tail

theorem putBack_depth (m : DataMember) (ts : Int) (s : IMRSnapshot) : (m.putBack ts s).depth = m.depth := by
  unfold putBack
  split <;> rfl

theorem ledger_resetUnfound (m : DataMember) (ts : Int) (listed : Finset Int) :
    (m.resetUnfound ts).ledger listed = m.ledger listed := by
  unfold resetUnfound
  split
  next => rfl
  next =>
    split
    next => rfl
    next h =>
      unfold ledger
      rw [h]
      rfl

theorem resetUnfound_depth (m : DataMember) (ts : Int) : (m.resetUnfound ts).depth = m.depth := by
  unfold resetUnfound
  split
  next => rfl
  next => split <;> rfl

end DataMember

section Repair

variable {n : Nat} {mode : IMRMode} {stale : Fin n → Nat → Nat → UInt8} {ms ms' : Fin n → DataMember}

/-- What a repair makes of a property of a member, if mending one of its timestamps keeps it. -/
theorem repair_keeps {P : DataMember → Prop} {stamps : List Int} (hstage : ∀ (m : DataMember) (k : Fin n), P m → P (m.reinitStage k n))
    (hput : ∀ (m : DataMember) (s : IMRSnapshot), ∀ ts ∈ stamps, P m →
      ((m.commitSnapshots.find? ts).isSome → s.timestamp = ts) → P (m.putBack ts s))
    (hreset : ∀ (m : DataMember) (ts : Int), P m → P (m.resetUnfound ts))
    (h : DataGroup.repair mode stale stamps ms = .ok ms') (k : Fin n) (hk : P (ms k)) : P (ms' k) := by
  cases mode with
  | buddy =>
    refine DataMember.repairTimestamps_keeps (Q := fun ms => P (ms k)) (fun ts hts _ _ hstep hk => ?_) h (hstage _ k hk)
    rcases buddy_cases hstep with ⟨_, snaps, hsnaps, rfl⟩ | ⟨_, rfl⟩
    · exact hput _ _ _ hts hk (hsnaps k)
    · exact hreset _ _ hk
  | parity =>
    refine DataMember.repairTimestamps_keeps (Q := fun ms => P (ms k)) (fun ts hts _ _ hstep hk => ?_) h (hstage _ k hk)
    rcases parity_cases hstep with ⟨_, snaps, hsnaps, rfl⟩ | ⟨_, rfl⟩
    · exact hput _ _ _ hts hk (hsnaps k)
    · exact hreset _ _ hk

end Repair

end Fenix
