import Fenix.ProcGroups

namespace Fenix.Assignment

variable {a b c : Assignment} {idx p q : Nat} {removed added : List Nat}

/-- The ranks in order name the processes of the user group, each of which knows its rank. -/
structure Held (a : Assignment) : Prop where
  filled : a.rankToPid.reduceOption = a.userPids
  nodup : a.userPids.Nodup
  ranked : ∀ {r p : Nat}, a.rankToPid[r]? = some (some p) → a.pidToRank[p]? = some (some r)

/-- What becomes of an assignment when some processes leave it and others take over places. -/
structure Change (a b : Assignment) (removed added : List Nat) : Prop where
  held : b.Held
  length_pids : b.pidToRank.length = a.pidToRank.length
  mem_iff : ∀ x, x ∈ b.userPids ↔ x ∈ a.userPids ∧ x ∉ removed ∨ x ∈ added
  keeps : ∀ r x : Nat, x ∉ removed → a.rankToPid[r]? = some (some x) → b.rankToPid[r]? = some (some x)
  order : ∀ P : Nat → Bool, (∀ x ∈ removed, P x = false) → (∀ x ∈ added, P x = false) →
    b.userPids.filter P = a.userPids.filter P

theorem Change.refl (h : a.Held) : Change a a [] [] where
  held := h
  length_pids := rfl
  mem_iff := by simp
  keeps := fun _ _ _ h => h
  order := fun _ _ _ => rfl

theorem Change.trans {removed' added' : List Nat} (h : Change a b removed added)
    (h' : Change b c removed' added') (hd : ∀ x ∈ added, x ∉ removed') :
    Change a c (removed ++ removed') (added ++ added') where
  held := h'.held
  length_pids := h'.length_pids.trans h.length_pids
  mem_iff := by
    intro x
    rw [h'.mem_iff, h.mem_iff, List.mem_append, List.mem_append]
    have hx := hd x
    tauto
  keeps := by
    intro r x hx hr
    rw [List.mem_append, not_or] at hx
    exact h'.keeps r x hx.2 (h.keeps r x hx.1 hr)
  order := by
    intro P hr ha
    rw [h'.order P (fun x hx => hr x (List.mem_append_right _ hx)) (fun x hx => ha x (List.mem_append_right _ hx)),
      h.order P (fun x hx => hr x (List.mem_append_left _ hx)) (fun x hx => ha x (List.mem_append_left _ hx))]

theorem Held.rankAt_ok (h : a.Held) (hi : a.userPids[idx]? = some p) :
    ∃ rank, a.rankAt idx = .ok rank ∧ a.rankToPid[rank]? = some (some p) := by
  have hp : p ∈ a.rankToPid.reduceOption := by
    rw [h.filled]
    exact List.mem_of_getElem? hi
  obtain ⟨rank, hr⟩ := List.mem_reduceOption_iff_getElem?.mp hp
  refine ⟨rank, ?_, hr⟩
  simp only [rankAt, hi, h.ranked hr]

theorem Held.replace_ok (h : a.Held) (hi : a.userPids[idx]? = some p) (hq : q ∉ a.userPids)
    (hb : q < a.pidToRank.length) :
    ∃ b, a.replace idx q = .ok b ∧ b.userPids = a.userPids.set idx q ∧ Change a b [p] [q] := by
  obtain ⟨rank, hrank, hr⟩ := h.rankAt_ok hi
  have hlt := (List.getElem?_eq_some_iff.mp hr).1
  have hne : p ≠ q := fun heq => hq (heq ▸ List.mem_of_getElem? hi)
  refine ⟨_, by rw [replace, hrank]; rfl, rfl, ?_⟩
  constructor
  case held =>
    constructor
    case filled =>
      rw [← h.filled] at hi
      rw [List.reduceOption_set_some (h.filled ▸ h.nodup) hr hi, h.filled]
    case nodup => exact h.nodup.set hq
    case ranked =>
      intro r x hx
      by_cases heq : r = rank
      · subst heq
        rw [List.getElem?_set_self hlt] at hx
        cases Option.some.inj (Option.some.inj hx)
        exact List.getElem?_set_self hb
      · rw [List.getElem?_set_ne (Ne.symm heq)] at hx
        have hin : x ∈ a.userPids := by
          rw [← h.filled]
          exact List.mem_reduceOption_iff_getElem?.mpr ⟨r, hx⟩
        have hqx : q ≠ x := by
          rintro rfl
          exact hq hin
        rw [List.getElem?_set_ne hqx]
        exact h.ranked hx
  case length_pids => exact List.length_set
  case mem_iff =>
    intro x
    rw [List.mem_set_iff_of_nodup h.nodup hi, List.mem_singleton, List.mem_singleton]
  case keeps =>
    intro r x hx hrx
    have hrne : r ≠ rank := by
      rintro rfl
      exact hx (List.mem_singleton.mpr (Option.some.inj (Option.some.inj (hrx.symm.trans hr))))
    exact (List.getElem?_set_ne (Ne.symm hrne)).trans hrx
  case order =>
    intro P hp hpq
    exact List.filter_set_of_rejected hi (hp p List.mem_cons_self) (hpq q List.mem_cons_self)

theorem Held.shrink_ok (h : a.Held) (hi : a.userPids[idx]? = some p) :
    ∃ b, a.shrink idx = .ok b ∧ b.userPids = a.userPids.eraseIdx idx ∧ Change a b [p] [] := by
  obtain ⟨rank, hrank, hr⟩ := h.rankAt_ok hi
  have hlt := (List.getElem?_eq_some_iff.mp hr).1
  refine ⟨_, by rw [shrink, hrank]; rfl, rfl, ?_⟩
  constructor
  case held =>
    constructor
    case filled =>
      rw [← h.filled] at hi
      rw [List.reduceOption_set_none (h.filled ▸ h.nodup) hr hi, h.filled]
    case nodup => exact h.nodup.sublist (List.eraseIdx_sublist ..)
    case ranked =>
      intro r x hx
      by_cases heq : r = rank
      · subst heq
        rw [List.getElem?_set_self hlt] at hx
        cases Option.some.inj hx
      · rw [List.getElem?_set_ne (Ne.symm heq)] at hx
        exact h.ranked hx
  case length_pids => rfl
  case mem_iff =>
    intro x
    rw [List.mem_eraseIdx_iff_of_nodup h.nodup hi]
    simp
  case keeps =>
    intro r x hx hrx
    have hrne : r ≠ rank := by
      rintro rfl
      exact hx (List.mem_singleton.mpr (Option.some.inj (Option.some.inj (hrx.symm.trans hr))))
    exact (List.getElem?_set_ne (Ne.symm hrne)).trans hrx
  case order =>
    intro P hp _
    exact List.filter_eraseIdx_of_rejected hi (hp p List.mem_cons_self)

/-- The places of dead processes are taken over by spares one after the other. -/
theorem Held.replaceAll_ok (place : Nat → Nat) (takes : List (Nat × Nat)) (h : a.Held)
    (hat : ∀ x ∈ takes, a.userPids[place x.1]? = some x.1) (hp : (takes.map Prod.fst).Nodup)
    (hq : (takes.map Prod.snd).Nodup) (hnew : ∀ x ∈ takes, x.2 ∉ a.userPids ∧ x.2 < a.pidToRank.length) :
    ∃ b, a.replaceAll (takes.map fun x => (place x.1, x.2)) = .ok b ∧
      b.userPids.length = a.userPids.length ∧ Change a b (takes.map Prod.fst) (takes.map Prod.snd) ∧
      ∀ d, d ∉ takes.map Prod.fst → a.userPids[place d]? = some d → b.userPids[place d]? = some d := by
  induction takes generalizing a with
  | nil => exact ⟨a, rfl, rfl, .refl h, fun _ _ hd => hd⟩
  | cons x xs ih =>
    obtain ⟨hx, hat⟩ := List.forall_mem_cons.mp hat
    obtain ⟨hxnew, hnew⟩ := List.forall_mem_cons.mp hnew
    obtain ⟨hpx, hp⟩ := List.nodup_cons.mp hp
    obtain ⟨hqx, hq⟩ := List.nodup_cons.mp hq
    obtain ⟨a', ha', hpids, hc⟩ := h.replace_ok hx hxnew.1 hxnew.2
    have hstay : ∀ d, d ≠ x.1 → a.userPids[place d]? = some d → a'.userPids[place d]? = some d := by
      intro d hd hget
      have hne : place x.1 ≠ place d := by
        intro heq
        rw [← heq, hx] at hget
        exact hd (Option.some.inj hget).symm
      rw [hpids, List.getElem?_set_ne hne]
      exact hget
    obtain ⟨b, hb, hlen, hcb, hbstay⟩ := ih hc.held
      (fun y hy => hstay y.1 (fun heq => hpx (heq ▸ List.mem_map_of_mem hy)) (hat y hy)) hp hq
      (fun y hy => by
        obtain ⟨hyn, hyl⟩ := hnew y hy
        refine ⟨?_, by rw [hc.length_pids]; exact hyl⟩
        rw [hc.mem_iff, List.mem_singleton]
        rintro (hya | heq)
        · exact hyn hya.1
        · rw [← List.mem_singleton.mp heq] at hqx
          exact hqx (List.mem_map_of_mem hy))
    refine ⟨b, ?_, ?_, ?_, ?_⟩
    · rw [replaceAll, List.map_cons, List.foldlM_cons]
      exact Except.bind_eq_ok_iff.mpr ⟨a', ha', hb⟩
    · rw [hlen, hpids, List.length_set]
    · refine hc.trans hcb fun y hy hin => ?_
      rw [List.mem_singleton.mp hy] at hin
      obtain ⟨z, hz, heq⟩ := List.mem_map.mp hin
      exact hxnew.1 (heq ▸ List.mem_of_getElem? (hat z hz))
    · intro d hd hget
      rw [List.map_cons, List.mem_cons, not_or] at hd
      exact hbstay d hd.2 (hstay d hd.1 hget)

/-- Places are given up from the last one on, so that none moves before its turn. -/
theorem Held.shrinkAll_ok (place : Nat → Nat) {dead : List Nat} (h : a.Held) (hat : ∀ d ∈ dead, a.userPids[place d]? = some d)
    (hs : dead.Pairwise fun d e => place e < place d) :
    ∃ b, a.shrinkAll (dead.map place) = .ok b ∧ b.userPids.length + dead.length = a.userPids.length ∧
      Change a b dead [] := by
  induction dead generalizing a with
  | nil => exact ⟨a, rfl, rfl, .refl h⟩
  | cons x xs ih =>
    obtain ⟨hx, hat⟩ := List.forall_mem_cons.mp hat
    obtain ⟨hlast, hs⟩ := List.pairwise_cons.mp hs
    obtain ⟨a', ha', hpids, hc⟩ := h.shrink_ok hx
    have hlt := (List.getElem?_eq_some_iff.mp hx).1
    obtain ⟨b, hb, hlen, hcb⟩ := ih hc.held
      (fun y hy => by
        rw [hpids, List.getElem?_eraseIdx_of_lt (hlast y hy)]
        exact hat y hy) hs
    refine ⟨b, ?_, ?_, hc.trans hcb fun y hy => absurd hy List.not_mem_nil⟩
    · rw [shrinkAll, List.map_cons, List.foldlM_cons]
      exact Except.bind_eq_ok_iff.mpr ⟨a', ha', hb⟩
    · rw [hpids, List.length_eraseIdx_of_lt hlt] at hlen
      rw [List.length_cons]
      omega

theorem idxOf_pairwise {xs : List Nat} (hn : xs.Nodup) :
    xs.Pairwise fun a b => xs.idxOf a < xs.idxOf b := by
  rw [List.pairwise_iff_getElem]
  intro i j hi hj hij
  rw [hn.idxOf_getElem, hn.idxOf_getElem]
  exact hij

/-- The first dead processes are replaced as far as the spares last and the others are given up. -/
theorem Held.rebuild_ok (dead : List Nat) {spare : List Nat} (h : a.Held) (hd : dead.Sublist a.userPids)
    (hs : spare.Nodup) (hnew : ∀ q ∈ spare, q ∉ a.userPids ∧ q < a.pidToRank.length) :
    let places := dead.map fun pid => a.userPids.idxOf pid
    let k := min places.length spare.length
    ∃ b c, a.replaceAll ((places.take k).zip (spare.take k)) = .ok b ∧
      b.shrinkAll (places.drop k).reverse = .ok c ∧
      c.userPids.length + (dead.length - spare.length) = a.userPids.length ∧
      Change a c (dead.take k ++ (dead.drop k).reverse) (spare.take k) := by
  intro places k
  have hk : k = min dead.length spare.length := by simp only [k, places, List.length_map]
  have hdn : dead.Nodup := h.nodup.sublist hd
  have hplace : dead.Pairwise fun p q => a.userPids.idxOf p < a.userPids.idxOf q :=
    (idxOf_pairwise h.nodup).sublist hd
  have hat : ∀ p ∈ dead, a.userPids[a.userPids.idxOf p]? = some p :=
    fun p hp => List.getElem?_idxOf (hd.subset hp)
  have hfst : ((dead.take k).zip (spare.take k)).map Prod.fst = dead.take k :=
    List.map_fst_zip (by simp only [List.length_take]; omega)
  have hsnd : ((dead.take k).zip (spare.take k)).map Prod.snd = spare.take k :=
    List.map_snd_zip (by simp only [List.length_take]; omega)
  have htakes : (places.take k).zip (spare.take k) =
      ((dead.take k).zip (spare.take k)).map fun x => (a.userPids.idxOf x.1, x.2) := by
    rw [← List.map_take, List.zip_map_left]
    rfl
  obtain ⟨b, hb, hblen, hbc, hbstay⟩ := h.replaceAll_ok (fun p => a.userPids.idxOf p)
    ((dead.take k).zip (spare.take k)) (fun x hx => hat x.1 (List.mem_of_mem_take (List.of_mem_zip hx).1))
    (by rw [hfst]; exact hdn.sublist (List.take_sublist ..))
    (by rw [hsnd]; exact hs.sublist (List.take_sublist ..))
    (fun x hx => hnew x.2 (List.mem_of_mem_take (List.of_mem_zip hx).2))
  rw [hfst, hsnd] at hbc
  rw [hfst] at hbstay
  have hrest : ∀ p ∈ (dead.drop k).reverse, b.userPids[a.userPids.idxOf p]? = some p := by
    intro p hp
    have hp := List.mem_reverse.mp hp
    refine hbstay p ?_ (hat p (List.mem_of_mem_drop hp))
    have hdisj := List.disjoint_take_drop hdn (Nat.le_refl k)
    exact fun hin => hdisj hin hp
  obtain ⟨c, hc, hclen, hcc⟩ := hbc.held.shrinkAll_ok (fun p => a.userPids.idxOf p) hrest
    (List.pairwise_reverse.mpr (hplace.sublist (List.drop_sublist ..)))
  refine ⟨b, c, ?_, ?_, ?_, ?_⟩
  · rw [htakes]
    exact hb
  · rw [← List.map_drop, ← List.map_reverse]
    exact hc
  · rw [List.length_reverse, List.length_drop] at hclen
    omega
  · have hch := hbc.trans hcc fun q hq hin => (hnew q (List.mem_of_mem_take hq)).1
      (hd.subset (List.mem_of_mem_drop (List.mem_reverse.mp hin)))
    rwa [List.append_nil] at hch

end Fenix.Assignment
