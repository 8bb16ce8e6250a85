import Fenix.Fallible
import Fenix.OrdSet

/-- The elements of `S`, all of which have `Q`, stand for disjoint parts of `P` and for all of it. -/
structure Tiles {α β : Type} [LinearOrder α] (M : α → β → Prop) (Q : α → Prop) (S : OrdSet α) (P : β → Prop) :
    Prop where
  cover : ∀ x, (∃ r ∈ S, M r x) ↔ P x
  disjoint : ∀ r ∈ S, ∀ t ∈ S, ∀ x, M r x → M t x → r = t
  all : ∀ r ∈ S, Q r

namespace Tiles

variable {α β : Type} [LinearOrder α] {M : α → β → Prop} {Q : α → Prop} {S T : OrdSet α} {P P' : β → Prop} {r t : α}

theorem part (h : Tiles M Q S P) (hr : r ∈ S) {x : β} (hx : M r x) : P x := (h.cover x).mp ⟨r, hr, hx⟩

theorem congr (h : Tiles M Q S P) (hp : ∀ x, P x ↔ P' x) : Tiles M Q S P' :=
  ⟨fun x => (h.cover x).trans (hp x), h.disjoint, h.all⟩

theorem imp {Q' : α → Prop} (h : Tiles M Q S P) (hq : ∀ r ∈ S, Q r → Q' r) : Tiles M Q' S P :=
  ⟨h.cover, h.disjoint, fun r hr => hq r hr (h.all r hr)⟩

theorem empty : Tiles M Q ∅ fun _ => False :=
  ⟨fun _ => ⟨fun ⟨_, hr, _⟩ => OrdSet.not_mem_empty _ hr, False.elim⟩,
    fun _ hr => absurd hr (OrdSet.not_mem_empty _), fun _ hr => absurd hr (OrdSet.not_mem_empty _)⟩

theorem singleton (h : Q r) : Tiles M Q {r} (M r) := by
  refine ⟨fun x => ⟨?_, fun hx => ⟨r, OrdSet.mem_singleton.mpr rfl, hx⟩⟩, fun t ht t' ht' x _ _ => ?_, fun t ht => ?_⟩
  · rintro ⟨t, ht, hx⟩
    rwa [OrdSet.mem_singleton.mp ht] at hx
  · rw [OrdSet.mem_singleton.mp ht, OrdSet.mem_singleton.mp ht']
  · rwa [OrdSet.mem_singleton.mp ht]

theorem merge (hs : Tiles M Q S P) (ht : Tiles M Q T P') (hd : ∀ x, P x → ¬P' x) :
    Tiles M Q (S.merge T) fun x => P x ∨ P' x := by
  refine ⟨fun x => ?_, fun r hr t ht' x hx hx' => ?_, fun r hr => ?_⟩
  · rw [← hs.cover, ← ht.cover]
    simp only [OrdSet.mem_merge, or_and_right, exists_or]
  · rcases OrdSet.mem_merge.mp hr with hr | hr
    · rcases OrdSet.mem_merge.mp ht' with ht' | ht'
      · exact hs.disjoint r hr t ht' x hx hx'
      · exact absurd (ht.part ht' hx') (hd x (hs.part hr hx))
    · rcases OrdSet.mem_merge.mp ht' with ht' | ht'
      · exact absurd (ht.part hr hx) (hd x (hs.part ht' hx'))
      · exact ht.disjoint r hr t ht' x hx hx'
  · exact (OrdSet.mem_merge.mp hr).elim (hs.all r) (ht.all r)

theorem insert (hs : Tiles M Q S P) (hr : Q r) (hd : ∀ x, P x → ¬M r x) :
    Tiles M Q (S.insert r) fun x => P x ∨ M r x := by
  have hmem : ∀ t, t ∈ S.insert r ↔ t ∈ S.merge {r} := by
    intro t
    rw [OrdSet.mem_insert, OrdSet.mem_merge, OrdSet.mem_singleton, or_comm]
  have h := hs.merge (singleton hr) hd
  refine ⟨fun x => ?_, fun t ht t' ht' => h.disjoint t ((hmem t).mp ht) t' ((hmem t').mp ht'),
    fun t ht => h.all t ((hmem t).mp ht)⟩
  rw [← h.cover]
  simp only [hmem]

theorem filter (hs : Tiles M Q S P) (p : α → Bool) :
    Tiles M Q (S.filter p) fun x => ∃ r ∈ S, p r = true ∧ M r x := by
  refine ⟨fun x => ?_, fun r hr t ht => hs.disjoint r (OrdSet.mem_filter.mp hr).1 t (OrdSet.mem_filter.mp ht).1,
    fun r hr => hs.all r (OrdSet.mem_filter.mp hr).1⟩
  simp only [OrdSet.mem_filter, and_assoc]

theorem erase (hs : Tiles M Q S P) (hr : r ∈ S) : Tiles M Q (S.erase r) fun x => P x ∧ ¬M r x := by
  refine (hs.filter _).congr fun x => ?_
  constructor
  · rintro ⟨t, ht, hne, hx⟩
    exact ⟨hs.part ht hx, fun hr' => of_decide_eq_true hne (hs.disjoint t ht r hr x hx hr')⟩
  · rintro ⟨hp, hn⟩
    obtain ⟨t, ht, hx⟩ := (hs.cover x).mpr hp
    exact ⟨t, ht, decide_eq_true fun h => hn (h ▸ hx), hx⟩

/-- Two elements are replaced by one that stands for both. -/
theorem fuse (hs : Tiles M Q S P) {p q m : α} (hp : p ∈ S) (hq : q ∈ S) (hne : p ≠ q) (hm : Q m)
    (h : ∀ x, M m x ↔ M p x ∨ M q x) : Tiles M Q (((S.erase p).erase q).insert m) P := by
  have hq' : q ∈ S.erase p := OrdSet.mem_erase.mpr ⟨hq, hne.symm⟩
  refine (((hs.erase hp).erase hq').insert hm fun x hx hmx => ?_).congr fun x => ?_
  · exact ((h x).mp hmx).elim hx.1.2 hx.2
  · rw [h]
    constructor
    · rintro (hx | hx | hx)
      · exact hx.1.1
      · exact hs.part hp hx
      · exact hs.part hq hx
    · intro hx
      tauto

/-- The tiles do not depend on the order they are told in. -/
theorem of_mem_iff (hs : Tiles M Q S P) (h : ∀ r, r ∈ T ↔ r ∈ S) : Tiles M Q T P := by
  refine ⟨fun x => ?_, fun r hr t ht => hs.disjoint r ((h r).mp hr) t ((h t).mp ht), fun r hr => hs.all r ((h r).mp hr)⟩
  rw [← hs.cover]
  simp only [h]

/-- Sets that tile disjoint parts are merged into one. -/
theorem foldl_merge {γ : Type} {R : γ → β → Prop} {ps : List γ} {ts : List (OrdSet α)}
    (hts : List.Forall₂ (fun p T => Tiles M Q T (R p)) ps ts) (hd : ps.Pairwise fun p q => ∀ x, R p x → ¬R q x)
    (hs : Tiles M Q S P) (hp : ∀ p ∈ ps, ∀ x, P x → ¬R p x) :
    Tiles M Q (ts.foldl OrdSet.merge S) fun x => P x ∨ ∃ p ∈ ps, R p x := by
  induction hts generalizing S P with
  | nil => exact hs.congr fun x => by simp
  | @cons p T ps ts hT _ ih =>
    obtain ⟨hd, hds⟩ := List.pairwise_cons.mp hd
    rw [List.foldl_cons]
    refine (ih hds (hs.merge hT (hp p List.mem_cons_self)) fun q hq x hx => ?_).congr fun x => ?_
    · exact hx.elim (hp q (List.mem_cons_of_mem _ hq) x) (hd q hq x)
    · rw [List.exists_mem_cons_iff, or_assoc]

/-- Elements that were cut one by one, what is left of each being merged. -/
theorem mapM_merge {ε γ : Type} {R : γ → β → Prop} {f : γ → Except ε (OrdSet α)} {ps : List γ}
    (h : ∀ p ∈ ps, ∃ T, f p = .ok T ∧ Tiles M Q T (R p)) (hd : ps.Pairwise fun p q => ∀ x, R p x → ¬R q x) :
    ∃ ts, ps.mapM f = .ok ts ∧ Tiles M Q (ts.foldl OrdSet.merge ∅) fun x => ∃ p ∈ ps, R p x := by
  obtain ⟨ts, hts⟩ := List.mapM_ok_exists_iff.mpr fun p hp => (h p hp).imp fun T hT => hT.1
  refine ⟨ts, hts, (foldl_merge ?_ hd empty fun _ _ _ hx => hx.elim).congr fun x => by rw [false_or]⟩
  refine List.forall₂_imp_of_mem_left (List.mapM_eq_ok_iff.mp hts) fun p hp T hT => ?_
  obtain ⟨T', hT', htiles⟩ := h p hp
  cases Except.ok.inj (hT.symm.trans hT')
  exact htiles

theorem pairwise (h : Tiles M Q S P) {ps : List α} (hps : ps.Sublist S.entries) :
    ps.Pairwise fun p q => ∀ x, M p x → ¬M q x := by
  refine (S.sorted.sublist hps).imp_of_mem fun {p q} hp hq hlt x hx hx' => ?_
  exact ne_of_lt hlt (h.disjoint p (hps.subset hp) q (hps.subset hq) x hx hx')

end Tiles
