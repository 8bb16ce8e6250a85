import Fenix.Callbacks

namespace Fenix

/-- An invocation that goes through the callbacks in the given order: all of them, unless callbacks are
invoked anew during a call, which is then its last. -/
structure Invocation.Follows (inv : Invocation) (order : List Nat) : Prop where
  order : inv.calls.map Prod.fst <+: order
  stops : ∀ call ∈ inv.calls.dropLast, call.2 = false
  complete : (∀ call ∈ inv.calls, call.2 = false) → inv.calls.length = inv.registered.length

/-- The callback registered last is called first. -/
def Invocation.Documented (inv : Invocation) : Prop := inv.Follows inv.registered.reverse

/-- No exception leaves a callback. -/
def Reaction.Caught : Reaction → Prop
  | .returns => True
  | .recovers pre post caught next => caught = true ∧ (∀ i, (pre i).Caught) ∧ (∀ i, (post i).Caught) ∧ next.Caught

section Order

variable {mode : CallbackExceptionMode} {callbacks : CallbackLocation → List Nat}

/-- The callbacks are called in the order of their registration. -/
def InRegistrationOrder (callbacks : CallbackLocation → List Nat) (log : List Invocation) : Prop :=
  ∀ inv ∈ log, inv.registered = callbacks inv.location ∧ inv.Follows inv.registered

theorem InRegistrationOrder.append {l₁ l₂ : List Invocation} (h₁ : InRegistrationOrder callbacks l₁)
    (h₂ : InRegistrationOrder callbacks l₂) : InRegistrationOrder callbacks (l₁ ++ l₂) := by
  intro inv hinv
  cases List.mem_append.mp hinv with
  | inl h => exact h₁ inv h
  | inr h => exact h₂ inv h

/-- The counter tells whether callbacks were invoked. -/
structure Counted (callbacks : CallbackLocation → List Nat) (depth : Nat) (o : Outcome) : Prop where
  order : InRegistrationOrder callbacks o.log
  still : o.log = [] → o.depth = depth ∧ o.thrown = false
  moved : o.log ≠ [] → depth < o.depth

/-- Once the counter has moved on no callback is called. -/
theorem callCallbacks_moved {layer depth : Nat} (h : depth ≠ layer + 1) (act : Nat → Nat → Outcome) (i : Nat)
    (cbs : List Nat) : callCallbacks layer act i cbs depth = ([], ⟨[], depth, false⟩) := by
  cases cbs with
  | nil => rfl
  | cons cb rest => exact if_pos h

/-- The loop goes through the callbacks to the first call during which callbacks are invoked anew. -/
theorem callCallbacks_spec (layer : Nat) {act : Nat → Nat → Outcome}
    (hact : ∀ i depth, 0 < depth → Counted callbacks depth (act i depth)) (i : Nat) (cbs : List Nat) :
    let (calls, o) := callCallbacks layer act i cbs (layer + 1)
    calls.map Prod.fst <+: cbs ∧ (∀ call ∈ calls.dropLast, call.2 = false) ∧
      ((∀ call ∈ calls, call.2 = false) → calls.length = cbs.length) ∧
      layer < o.depth ∧ InRegistrationOrder callbacks o.log := by
  induction cbs generalizing i with
  | nil => exact ⟨List.prefix_refl _, by simp, fun _ => rfl, Nat.lt_succ_self _, by
      intro inv hinv
      cases hinv⟩
  | cons cb rest ih =>
    have hcall := hact i (layer + 1) (Nat.succ_pos layer)
    unfold callCallbacks
    rw [if_neg (fun h => h rfl)]
    by_cases hlog : (act i (layer + 1)).log = []
    · obtain ⟨hdepth, hthrown⟩ := hcall.still hlog
      obtain ⟨hinit, hstops, hall, hmoved, horder⟩ := ih (i + 1)
      simp only [hthrown, hdepth, hlog, List.isEmpty_nil, Bool.not_true, Bool.false_eq_true, if_false, List.nil_append]
      refine ⟨?_, ?_, ?_, hmoved, horder⟩
      · rw [List.map_cons, List.cons_prefix_cons]
        exact ⟨rfl, hinit⟩
      · intro call hc
        generalize (callCallbacks layer act (i + 1) rest (layer + 1)).1 = calls at hstops hc
        cases calls with
        | nil => cases hc
        | cons next calls =>
          rw [List.dropLast_cons_cons] at hc
          cases List.mem_cons.mp hc with
          | inl heq => rw [heq]
          | inr hmem => exact hstops call hmem
      · intro hquiet
        have hlen := hall fun call hc => hquiet call (List.mem_cons_of_mem _ hc)
        rw [List.length_cons, hlen, List.length_cons]
    · have hmoved := hcall.moved hlog
      have hflag : (!(act i (layer + 1)).log.isEmpty) = true := by simpa using hlog
      have hone : ∀ last : Outcome, layer < last.depth → InRegistrationOrder callbacks last.log →
          ([(cb, true)] : List (Nat × Bool)).map Prod.fst <+: cb :: rest ∧
            (∀ call ∈ [(cb, true)].dropLast, call.2 = false) ∧
            ((∀ call ∈ [(cb, true)], call.2 = false) → [(cb, true)].length = (cb :: rest).length) ∧
            layer < last.depth ∧ InRegistrationOrder callbacks last.log := by
        intro last hdepth horder
        refine ⟨⟨rest, rfl⟩, ?_, ?_, hdepth, horder⟩
        · intro call hc
          cases hc
        · intro hquiet
          have hfalse := hquiet (cb, true) List.mem_cons_self
          cases hfalse
      simp only [hflag]
      split
      next => exact hone (act i (layer + 1)) (Nat.lt_of_succ_lt hmoved) hcall.order
      next =>
        rw [callCallbacks_moved (by omega)]
        simp only [List.append_nil]
        exact hone ⟨_, (act i (layer + 1)).depth, false⟩ (Nat.lt_of_succ_lt hmoved) hcall.order

/-- Invocations change the counter, unless it is the outermost one that ends. -/
theorem callbackInvokeAll_spec (mode : CallbackExceptionMode) (loc : CallbackLocation) {act : Nat → Nat → Outcome}
    (hact : ∀ i depth, 0 < depth → Counted callbacks depth (act i depth)) (depth : Nat) :
    let o := callbackInvokeAll mode callbacks loc act depth
    (∃ inv ∈ o.log, inv.registered = callbacks loc) ∧ InRegistrationOrder callbacks o.log ∧
      (0 < depth → depth < o.depth) ∧ (mode = .squash → o.thrown = false) := by
  obtain ⟨hinit, hstops, hall, hmoved, horder⟩ := callCallbacks_spec depth hact 0 (callbacks loc)
  unfold callbackInvokeAll
  refine ⟨⟨_, List.mem_cons_self, rfl⟩, ?_, ?_, ?_⟩
  · intro inv hinv
    cases List.mem_cons.mp hinv with
    | inl heq =>
      subst heq
      exact ⟨rfl, hinit, hstops, hall⟩
    | inr hmem => exact horder inv hmem
  · intro hpos
    change depth < if depth = 0 then 0 else _
    rw [if_neg (by omega)]
    exact hmoved
  · rintro rfl
    exact Bool.and_false _

/-- A recovery invokes the callbacks of both locations, if no exception has it stop between them. -/
theorem recover_spec (mode : CallbackExceptionMode) {pre post : Nat → Nat → Outcome}
    (hpre : ∀ i depth, 0 < depth → Counted callbacks depth (pre i depth))
    (hpost : ∀ i depth, 0 < depth → Counted callbacks depth (post i depth)) (depth : Nat) :
    (recover mode callbacks pre post depth).log ≠ [] ∧
      InRegistrationOrder callbacks (recover mode callbacks pre post depth).log ∧
      (0 < depth → depth < (recover mode callbacks pre post depth).depth) := by
  obtain ⟨⟨inv, hinv, _⟩, horder, hmoved, _⟩ := callbackInvokeAll_spec mode .preRecovery hpre depth
  have hne := List.ne_nil_of_mem hinv
  unfold recover
  simp only
  split
  next => exact ⟨hne, horder, hmoved⟩
  next =>
    obtain ⟨_, horder', hmoved', _⟩ := callbackInvokeAll_spec mode .postRecovery hpost
      (callbackInvokeAll mode callbacks .preRecovery pre depth).depth
    refine ⟨?_, horder.append horder', ?_⟩
    · intro hnil
      exact hne (List.append_eq_nil_iff.mp hnil).1
    · intro hpos
      have hlt := hmoved hpos
      exact Nat.lt_trans hlt (hmoved' (Nat.lt_trans hpos hlt))

theorem react_spec (mode : CallbackExceptionMode) (callbacks : CallbackLocation → List Nat) (r : Reaction) {depth : Nat} (h : 0 < depth) :
    Counted callbacks depth (react mode callbacks r depth) := by
  induction r generalizing depth with
  | returns =>
    refine ⟨?_, fun _ => ⟨rfl, rfl⟩, fun hne => absurd rfl hne⟩
    intro inv hinv
    cases hinv
  | recovers pre post caught next hpre hpost hnext =>
    obtain ⟨hne, horder, hmoved⟩ := recover_spec mode (fun i _ hd => hpre i hd) (fun i _ hd => hpost i hd) depth
    have hlt := hmoved h
    unfold react
    split
    next =>
      have hlast := hnext (show 0 < (recover mode callbacks (fun i => react mode callbacks (pre i))
        (fun i => react mode callbacks (post i)) depth).depth by omega)
      refine ⟨horder.append hlast.order, fun hnil => absurd (List.append_eq_nil_iff.mp hnil).1 hne, fun _ => ?_⟩
      by_cases hlog : (react mode callbacks next (recover mode callbacks (fun i => react mode callbacks (pre i))
          (fun i => react mode callbacks (post i)) depth).depth).log = []
      · exact Nat.lt_of_lt_of_eq hlt (hlast.still hlog).1.symm
      · exact Nat.lt_trans hlt (hlast.moved hlog)
    next => exact ⟨horder, fun hnil => absurd hnil hne, fun _ => hlt⟩

theorem callCallbacks_caught {layer : Nat} {act : Nat → Nat → Outcome} (hact : ∀ i depth, (act i depth).thrown = false)
    (i : Nat) (cbs : List Nat) (depth : Nat) : (callCallbacks layer act i cbs depth).2.thrown = false := by
  induction cbs generalizing i depth with
  | nil => rfl
  | cons cb rest ih =>
    unfold callCallbacks
    split
    next => rfl
    next =>
      simp only [hact, Bool.false_eq_true, if_false]
      exact ih (i + 1) _

theorem callbackInvokeAll_caught {loc : CallbackLocation} {act : Nat → Nat → Outcome}
    (hact : ∀ i depth, (act i depth).thrown = false) (depth : Nat) :
    (callbackInvokeAll mode callbacks loc act depth).thrown = false := by
  unfold callbackInvokeAll
  simp only [callCallbacks_caught hact, Bool.false_and]

theorem recover_of_not_thrown {pre post : Nat → Nat → Outcome} {depth : Nat}
    (h : (callbackInvokeAll mode callbacks .preRecovery pre depth).thrown = false) :
    recover mode callbacks pre post depth =
      { callbackInvokeAll mode callbacks .postRecovery post
          (callbackInvokeAll mode callbacks .preRecovery pre depth).depth with
        log := (callbackInvokeAll mode callbacks .preRecovery pre depth).log ++
          (callbackInvokeAll mode callbacks .postRecovery post
            (callbackInvokeAll mode callbacks .preRecovery pre depth).depth).log } := by
  unfold recover
  simp only [h, Bool.false_eq_true, if_false]

theorem react_caught {r : Reaction} (h : r.Caught) (depth : Nat) : (react mode callbacks r depth).thrown = false := by
  induction r generalizing depth with
  | returns => rfl
  | recovers pre post caught next hpre hpost hnext =>
    obtain ⟨rfl, _, _, hn⟩ := h
    unfold react
    exact hnext hn _

/-- A recovery from which no exception escapes has the callbacks of both locations invoked. -/
theorem recover_invokes (callbacks : CallbackLocation → List Nat) {pre post : Nat → Reaction}
    (h : mode = .squash ∨ ∀ i, (pre i).Caught ∧ (post i).Caught) (depth : Nat) (loc : CallbackLocation) :
    ∃ inv ∈ (recover mode callbacks (fun i => react mode callbacks (pre i))
      (fun i => react mode callbacks (post i)) depth).log, inv.registered = callbacks loc := by
  have hpre := callbackInvokeAll_spec mode .preRecovery
    (fun i _ hd => react_spec mode callbacks (pre i) hd) depth
  have hpost := callbackInvokeAll_spec mode .postRecovery
    (fun i _ hd => react_spec mode callbacks (post i) hd)
    (callbackInvokeAll mode callbacks .preRecovery (fun i => react mode callbacks (pre i)) depth).depth
  have hthrown : (callbackInvokeAll mode callbacks .preRecovery (fun i => react mode callbacks (pre i)) depth).thrown =
      false := by
    cases h with
    | inl hsquash => exact hpre.2.2.2 hsquash
    | inr hcaught => exact callbackInvokeAll_caught (fun i d => react_caught (hcaught i).1 d) depth
  rw [recover_of_not_thrown hthrown]
  cases loc with
  | preRecovery =>
    obtain ⟨inv, hinv, heq⟩ := hpre.1
    exact ⟨inv, List.mem_append_left _ hinv, heq⟩
  | postRecovery =>
    obtain ⟨inv, hinv, heq⟩ := hpost.1
    exact ⟨inv, List.mem_append_right _ hinv, heq⟩

end Order

namespace Invocation

variable {inv : Invocation}

/-- A single callback is the first and the last of them. -/
theorem documented_of_length_le (hf : inv.Follows inv.registered) (h : inv.registered.length ≤ 1) : inv.Documented := by
  have hrev : inv.registered.reverse = inv.registered := by
    generalize inv.registered = cbs at h
    match cbs, h with
    | [], _ => rfl
    | [_], _ => rfl
  unfold Documented
  rwa [hrev]

/-- With two callbacks or more the one called first is not the one registered last. -/
theorem length_le_of_documented (hf : inv.Follows inv.registered) (hd : inv.Documented)
    (hn : inv.registered.Nodup) : inv.registered.length ≤ 1 := by
  have hfirst := hf.order
  have hlast := hd.order
  have hsome : inv.calls = [] → inv.registered.length = 0 := by
    intro hnil
    have hlen := hf.complete (by rw [hnil]; intro call hc; cases hc)
    rw [hnil] at hlen
    exact hlen.symm
  generalize inv.registered = cbs at hfirst hlast hn hsome
  cases hcalls : inv.calls with
  | nil =>
    have hlen := hsome hcalls
    omega
  | cons call calls =>
    rw [hcalls, List.map_cons] at hfirst hlast
    cases cbs with
    | nil => exact Nat.zero_le 1
    | cons a rest =>
      have ha : call.1 = a := (List.cons_prefix_cons.mp hfirst).1
      rw [List.reverse_cons] at hlast
      cases hrest : rest.reverse with
      | nil =>
        rw [List.reverse_eq_nil_iff.mp hrest]
        exact Nat.le_refl 1
      | cons b others =>
        rw [hrest, List.cons_append] at hlast
        have hb : call.1 = b := (List.cons_prefix_cons.mp hlast).1
        have hmem : b ∈ rest.reverse := hrest ▸ List.mem_cons_self
        have hnot := (List.nodup_cons.mp hn).1
        exact absurd (List.mem_reverse.mp hmem) (hb ▸ ha ▸ hnot)

end Invocation

namespace CallbackRuntime

variable {rt : CallbackRuntime} {op : Op} {ops : List Op}

/-- No exception leaves the recovery. -/
def Op.Handled : Op → Prop
  | .recover mode pre post => mode = .squash ∨ ∀ i, (pre i).Caught ∧ (post i).Caught
  | _ => True

/-- A recovery has at most one callback to call at each location. -/
def Op.Single (rt : CallbackRuntime) : Op → Prop
  | .recover _ _ _ => ∀ loc, (rt.callbacks loc).length ≤ 1
  | _ => True

/-- At every recovery of a run at most one callback is registered for each location. -/
def AtMostOne : CallbackRuntime → List Op → Prop
  | _, [] => True
  | rt, op :: ops => op.Single rt ∧ AtMostOne (rt.step op).2 ops

/-- The callbacks are kept in the order of their registration. -/
structure Numbered (rt : CallbackRuntime) : Prop where
  initialized : rt.initFlag = true
  sorted : ∀ loc, (rt.callbacks loc).Pairwise (· < ·)
  below : ∀ loc, ∀ cb ∈ rt.callbacks loc, cb < rt.registered

theorem callbackRegister_eq (h : rt.initFlag = true) (loc : CallbackLocation) : rt.callbackRegister loc =
    (.success, { rt with callbacks := Function.update rt.callbacks loc (rt.callbacks loc ++ [rt.registered])
                         registered := rt.registered + 1 }) := if_neg (by simp [h])

theorem callbackPop_eq (h : rt.initFlag = true) (loc : CallbackLocation) : rt.callbackPop loc =
    if (rt.callbacks loc).isEmpty then (.callbackNotRegistered, rt)
    else (.success, { rt with callbacks := Function.update rt.callbacks loc (rt.callbacks loc).dropLast }) :=
  if_neg (by simp [h])

theorem step_recover_eq (h : rt.initFlag = true) (mode : CallbackExceptionMode) (pre post : Nat → Reaction) :
    rt.step (.recover mode pre post) =
      ((Fenix.recover mode rt.callbacks (fun i => react mode rt.callbacks (pre i))
          (fun i => react mode rt.callbacks (post i)) rt.depth).log,
        { rt with depth := (Fenix.recover mode rt.callbacks (fun i => react mode rt.callbacks (pre i))
          (fun i => react mode rt.callbacks (post i)) rt.depth).depth }) := if_neg (by simp [h])

theorem numbered_register (h : rt.Numbered) (loc : CallbackLocation) : (rt.callbackRegister loc).2.Numbered := by
  rw [callbackRegister_eq h.initialized]
  refine ⟨h.initialized, fun l => ?_, fun l cb hcb => ?_⟩
  · change (Function.update rt.callbacks loc (rt.callbacks loc ++ [rt.registered]) l).Pairwise _
    by_cases hl : l = loc
    · subst hl
      rw [Function.update_self, List.pairwise_append]
      refine ⟨h.sorted l, List.pairwise_singleton _ _, fun a ha b hb => ?_⟩
      rw [List.mem_singleton.mp hb]
      exact h.below l a ha
    · rw [Function.update_of_ne hl]
      exact h.sorted l
  · change cb ∈ Function.update rt.callbacks loc (rt.callbacks loc ++ [rt.registered]) l at hcb
    change cb < rt.registered + 1
    by_cases hl : l = loc
    · subst hl
      rw [Function.update_self] at hcb
      cases List.mem_append.mp hcb with
      | inl hmem =>
        have hlt := h.below l cb hmem
        omega
      | inr hmem =>
        have heq := List.mem_singleton.mp hmem
        omega
    · rw [Function.update_of_ne hl] at hcb
      have hlt := h.below l cb hcb
      omega

theorem numbered_pop (h : rt.Numbered) (loc : CallbackLocation) : (rt.callbackPop loc).2.Numbered := by
  rw [callbackPop_eq h.initialized]
  split
  next => exact h
  next =>
    have hsub : ∀ l, (Function.update rt.callbacks loc (rt.callbacks loc).dropLast l).Sublist (rt.callbacks l) := by
      intro l
      by_cases hl : l = loc
      · subst hl
        rw [Function.update_self]
        exact List.dropLast_sublist _
      · rw [Function.update_of_ne hl]
    exact ⟨h.initialized, fun l => (h.sorted l).sublist (hsub l), fun l cb hcb => h.below l cb ((hsub l).subset hcb)⟩

theorem numbered_step (h : rt.Numbered) (op : Op) : (rt.step op).2.Numbered := by
  cases op with
  | register loc => exact numbered_register h loc
  | pop loc => exact numbered_pop h loc
  | recover mode pre post =>
    rw [step_recover_eq h.initialized]
    exact ⟨h.initialized, h.sorted, h.below⟩

/-- Whatever the callbacks do, an invocation goes through them in the order of their registration, up to
the first one during which they are invoked anew. -/
theorem step_follows (rt : CallbackRuntime) (op : Op) : InRegistrationOrder rt.callbacks (rt.step op).1 := by
  cases op with
  | register loc => exact fun inv hinv => nomatch hinv
  | pop loc => exact fun inv hinv => nomatch hinv
  | recover mode pre post =>
    by_cases hinit : rt.initFlag = true
    · rw [step_recover_eq hinit]
      exact (recover_spec mode (fun i _ hd => react_spec mode rt.callbacks (pre i) hd)
        (fun i _ hd => react_spec mode rt.callbacks (post i) hd) rt.depth).2.1
    · have heq : rt.step (.recover mode pre post) = ([], rt) := if_pos (by simpa using hinit)
      rw [heq]
      exact fun inv hinv => nomatch hinv

theorem run_follows (rt : CallbackRuntime) (ops : List Op) : ∀ inv ∈ rt.run ops, inv.Follows inv.registered := by
  induction ops generalizing rt with
  | nil => exact fun inv hinv => nomatch hinv
  | cons op ops ih =>
    intro inv hinv
    cases List.mem_append.mp hinv with
    | inl hmem => exact (step_follows rt op inv hmem).2
    | inr hmem => exact ih (rt.step op).2 inv hmem

/-- What a step invokes is as documented exactly if there is no more than one callback to call. -/
theorem step_documented_iff (h : rt.Numbered) (hop : op.Handled) :
    (∀ inv ∈ (rt.step op).1, inv.Documented) ↔ op.Single rt := by
  cases op with
  | register loc => exact ⟨fun _ => trivial, fun _ inv hinv => nomatch hinv⟩
  | pop loc => exact ⟨fun _ => trivial, fun _ inv hinv => nomatch hinv⟩
  | recover mode pre post =>
    have horder := step_follows rt (.recover mode pre post)
    rw [step_recover_eq h.initialized] at horder ⊢
    constructor
    · intro hdoc loc
      obtain ⟨inv, hinv, heq⟩ := recover_invokes rt.callbacks hop rt.depth loc
      rw [← heq]
      refine Invocation.length_le_of_documented (horder inv hinv).2 (hdoc inv hinv) ?_
      rw [heq]
      exact (h.sorted loc).imp fun hlt => Nat.ne_of_lt hlt
    · intro hone inv hinv
      obtain ⟨heq, hf⟩ := horder inv hinv
      refine Invocation.documented_of_length_le hf ?_
      rw [heq]
      exact hone inv.location

/-- In a run each invocation calls the callback registered last first, goes through all of them and stops
once callbacks were invoked anew, exactly if it never has two callbacks to call: they are called in the
order in which they were registered. -/
theorem documented_iff {ops : List Op} (h : ∀ op ∈ ops, op.Handled) :
    (∀ inv ∈ run start ops, inv.Documented) ↔ AtMostOne start ops := by
  have hstart : start.Numbered := ⟨rfl, fun _ => List.Pairwise.nil, fun _ _ hcb => nomatch hcb⟩
  generalize start = rt at hstart
  induction ops generalizing rt with
  | nil => exact ⟨fun _ => trivial, fun _ inv hinv => nomatch hinv⟩
  | cons op ops ih =>
    have hop := step_documented_iff hstart (h op List.mem_cons_self)
    have hrest := ih (fun o ho => h o (List.mem_cons_of_mem _ ho)) (rt.step op).2 (numbered_step hstart op)
    change (∀ inv ∈ (rt.step op).1 ++ run (rt.step op).2 ops, inv.Documented) ↔ _ ∧ _
    refine Iff.trans ?_ (and_congr hop hrest)
    constructor
    · intro hall
      exact ⟨fun inv hinv => hall inv (List.mem_append_left _ hinv), fun inv hinv => hall inv (List.mem_append_right _ hinv)⟩
    · rintro ⟨hhead, htail⟩ inv hinv
      cases List.mem_append.mp hinv with
      | inl hmem => exact hhead inv hmem
      | inr hmem => exact htail inv hmem

/-- A recovery that is interrupted by another one in the first of two callbacks. -/
def interrupted : List Op :=
  [.register .postRecovery, .register .postRecovery, .recover .squash (fun _ => .returns) fun i =>
    if i = 0 then .recovers (fun _ => .returns) (fun _ => .returns) true .returns else .returns]

theorem interrupted_handled : ∀ op ∈ interrupted, op.Handled := by
  unfold interrupted Op.Handled
  simp

theorem documented_iff_interrupted : (∀ inv ∈ run start interrupted, inv.Documented) ↔ AtMostOne start interrupted :=
  documented_iff interrupted_handled

/-- Of two callbacks the one registered first is called first. -/
theorem interrupted_not_documented :
    ¬ ∀ ops : List Op, (∀ op ∈ ops, op.Handled) → ∀ inv ∈ run start ops, inv.Documented := by
  intro h
  have hinv : (⟨.postRecovery, [0, 1], [(0, false), (1, false)]⟩ : Invocation) ∈ run start interrupted := by
    decide
  have hdoc := h interrupted interrupted_handled _ hinv
  have horder : ([0, 1] : List Nat) <+: [1, 0] := hdoc.order
  exact absurd horder (by decide)

end CallbackRuntime

end Fenix
