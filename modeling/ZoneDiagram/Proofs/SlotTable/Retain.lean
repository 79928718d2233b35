import ZoneDiagram.Proofs.SlotTable.Consistent

/-!
# Dropping values

A bucket is sifted along its chain. The slots that were kept so far lead from the head of the bucket
to a slot that may be gone already, and the slots ahead lead to the end (`Sifting`). A step links the
last slot that was kept to the present one, or empties the present one (`Sifting.accept`,
`Sifting.reject`), and at the end the last slot that was kept is linked to none (`sift_eq_ok`).

So `retainWith` asks once for every slot in a chain, bucket by bucket, drops exactly those that are
rejected, and keeps the table consistent (`Consistent.retainWith_eq_ok`).
-/

namespace ZoneDiagram.SlotTable

variable {α σ : Type} {t t' t'' : SlotTable α} {v : α} {s b slot loose : Nat}
  {l l' kept rest dropped dropped' : List Nat} {chain : Nat → List Nat} {start : σ}
  {keep : Nat → StateM σ Bool}

/-! ## Tests with a state -/

theorem run_filterAuxM (keep : Nat → StateM σ Bool) (l acc : List Nat) (start : σ) :
    (l.filterAuxM keep acc).run start =
      (((l.filterAuxM keep []).run start).1 ++ acc, ((l.filterAuxM keep []).run start).2) := by
  induction l generalizing acc start with
  | nil => rfl
  | cons x l ih =>
    change (l.filterAuxM keep (cond ((keep x).run start).1 (x :: acc) acc)).run
      ((keep x).run start).2 = (((l.filterAuxM keep (cond ((keep x).run start).1 [x] [])).run
        ((keep x).run start).2).1 ++ acc, ((l.filterAuxM keep
          (cond ((keep x).run start).1 [x] [])).run ((keep x).run start).2).2)
    rw [ih, ih (cond ((keep x).run start).1 [x] [])]
    cases ((keep x).run start).1 <;> simp

theorem run_filterM_nil (keep : Nat → StateM σ Bool) (start : σ) :
    (([] : List Nat).filterM keep).run start = ([], start) := rfl

theorem run_filterM_cons (keep : Nat → StateM σ Bool) (x : Nat) (l : List Nat) (start : σ) :
    ((x :: l).filterM keep).run start =
      (cond ((keep x).run start).1 [x] [] ++ ((l.filterM keep).run ((keep x).run start).2).1,
        ((l.filterM keep).run ((keep x).run start).2).2) := by
  change (((l.filterAuxM keep (cond ((keep x).run start).1 [x] [])).run
      ((keep x).run start).2).1.reverse, ((l.filterAuxM keep
        (cond ((keep x).run start).1 [x] [])).run ((keep x).run start).2).2) =
    (cond ((keep x).run start).1 [x] [] ++ ((l.filterAuxM keep []).run
      ((keep x).run start).2).1.reverse, ((l.filterAuxM keep []).run ((keep x).run start).2).2)
  rw [run_filterAuxM]
  cases ((keep x).run start).1 <;> simp

theorem run_filterM_append (keep : Nat → StateM σ Bool) (l l' : List Nat) (start : σ) :
    ((l ++ l').filterM keep).run start =
      (((l.filterM keep).run start).1 ++ ((l'.filterM keep).run ((l.filterM keep).run start).2).1,
        ((l'.filterM keep).run ((l.filterM keep).run start).2).2) := by
  induction l generalizing start with
  | nil => rfl
  | cons x l ih => rw [List.cons_append, run_filterM_cons, ih, run_filterM_cons, List.append_assoc]

theorem run_filterM_pure (keep : Nat → Bool) (l : List Nat) (start : σ) :
    (l.filterM fun x => (pure (keep x) : StateM σ Bool)).run start = (l.filter keep, start) := by
  induction l with
  | nil => rfl
  | cons x l ih =>
    rw [run_filterM_cons]
    change (cond (keep x) [x] [] ++ ((l.filterM fun x => (pure (keep x) : StateM σ Bool)).run
      start).1, ((l.filterM fun x => (pure (keep x) : StateM σ Bool)).run start).2) = _
    rw [ih, List.filter_cons]
    cases keep x <;> rfl

/-! ## Changes in one chain -/

/-- A table without some of its values. -/
structure Without (t : SlotTable α) (dropped : List Nat) (t' : SlotTable α) : Prop where
  get? : ∀ s, t'.get? s = if s ∈ dropped then none else t.get? s
  capacity : t'.capacity = t.capacity
  buckets : t'.buckets.size = t.buckets.size
  realSize : t'.realSize + dropped.length = t.realSize

/-- Slots of one chain were dropped or linked anew, and all other chains are as they were. -/
structure Pruned (t : SlotTable α) (b : Nat) (l dropped : List Nat) (t' : SlotTable α) : Prop
    extends Without t dropped t' where
  head : ∀ b', b' ≠ b → t'.head b' = t.head b'
  nextAt : ∀ s, s ≠ 0 → s ∉ l → nextAt t'.slots s = nextAt t.slots s
  slotted : t'.Slotted

theorem Without.trans (h : Without t dropped t') (h' : Without t' dropped' t'') :
    Without t (dropped ++ dropped') t'' where
  get? s := by
    rw [h'.get?, h.get?]
    by_cases first : s ∈ dropped <;> simp [first]
  capacity := h'.capacity.trans h.capacity
  buckets := h'.buckets.trans h.buckets
  realSize := by
    rw [List.length_append, ← h.realSize, ← h'.realSize]
    omega

theorem Pruned.trans (h : Pruned t b l dropped t') (h' : Pruned t' b l dropped' t'') :
    Pruned t b l (dropped ++ dropped') t'' where
  toWithout := h.toWithout.trans h'.toWithout
  head b' ne := (h'.head b' ne).trans (h.head b' ne)
  nextAt s ne hs := (h'.nextAt s ne hs).trans (h.nextAt s ne hs)
  slotted := h'.slotted

theorem Pruned.mono (h : Pruned t b l dropped t') (sub : ∀ s ∈ l, s ∈ l') :
    Pruned t b l' dropped t' where
  toWithout := h.toWithout
  head := h.head
  nextAt s ne hs := h.nextAt s ne fun mem => hs (sub s mem)
  slotted := h.slotted

/-- A chain outside of what was pruned is there still. -/
theorem Pruned.leads {e : Nat} (h : Pruned t b l dropped t') (chain : Leads t.slots s l' e)
    (apart : ∀ x ∈ l', x ∉ l) : Leads t'.slots s l' e :=
  chain.congr fun x hx => h.nextAt x (chain.ne_zero hx) (apart x hx)

theorem pruned_link (h : t.Slotted) (b : Nat) (kept : List Nat) (slot : Nat) :
    Pruned t b kept [] (t.link b (kept.getLastD 0) slot) where
  get? s := by simp
  capacity := capacity_link _ _ _ _
  buckets := size_buckets_link _ _ _ _
  realSize := realSize_link _ _ _ _
  head _ ne := head_link_of_ne ne
  nextAt _ ne fresh := nextAt_link_getLastD ne fresh
  slotted := h.link _ _ _

/-! ## Emptying a slot -/

/-- The table whose slot is empty and the first of the free ones. -/
def vacate (t : SlotTable α) (slot : Nat) : SlotTable α :=
  { t with
    slots := t.slots.setIfInBounds slot .empty
    free := slot :: t.free
    realSize := t.realSize - 1 }

theorem drop_eq_ok {next : Nat} (hcell : t.cell slot = .ok ⟨some v, next⟩) :
    t.drop slot = .ok (t.vacate slot) := by
  rw [drop, hcell]
  rfl

theorem getElem?_vacate_of_ne (ne : s ≠ slot) : (t.vacate slot).slots[s]? = t.slots[s]? :=
  Array.getElem?_setIfInBounds_ne ne.symm

theorem getElem?_vacate_self (lt : slot < t.slots.size) :
    (t.vacate slot).slots[slot]? = some .empty :=
  Array.getElem?_setIfInBounds_self_of_lt lt

theorem Slotted.vacate (h : t.Slotted) (hs : t.get? slot = some v) : (t.vacate slot).Slotted where
  sentry := by
    rw [heldAt, getElem?_vacate_of_ne (h.ne_zero_of_get? hs).symm]
    exact h.sentry
  size_le := by
    rw [SlotTable.vacate, Array.size_setIfInBounds]
    exact h.size_le
  free_nodup := by
    refine List.nodup_cons.2 ⟨fun mem => ?_, h.free_nodup⟩
    have empty := (h.mem_free.1 mem).2
    rw [get?_eq_some_iff.1 hs] at empty
    cases empty
  mem_free := by
    intro s
    by_cases eq : s = slot
    · subst eq
      rw [heldAt, getElem?_vacate_self (lt_size_of_get? hs)]
      exact iff_of_true List.mem_cons_self ⟨h.ne_zero_of_get? hs, rfl⟩
    · rw [heldAt, getElem?_vacate_of_ne eq]
      exact List.mem_cons.trans ((or_iff_right eq).trans h.mem_free)
  count := by
    have count := h.count
    have pos := h.realSize_pos hs
    rw [SlotTable.vacate, Array.size_setIfInBounds, List.length_cons]
    dsimp only
    omega

/-- An emptied slot loses its value only. -/
theorem pruned_vacate (h : t.Slotted) (hs : t.get? slot = some v) (b : Nat) :
    Pruned t b [slot] [slot] (t.vacate slot) where
  get? s := by
    by_cases eq : s = slot
    · rw [if_pos (List.mem_singleton.2 eq), eq,
        get?_of_getElem? (getElem?_vacate_self (lt_size_of_get? hs))]
      rfl
    · rw [if_neg (List.mem_singleton.not.2 eq), SlotTable.get?, getElem?_vacate_of_ne eq,
        SlotTable.get?]
  capacity := rfl
  buckets := rfl
  realSize := Nat.sub_add_cancel (h.realSize_pos hs)
  head _ _ := rfl
  nextAt s _ apart := by
    rw [nextAt, getElem?_vacate_of_ne (List.mem_singleton.not.1 apart), nextAt]
  slotted := h.vacate hs

/-! ## One bucket -/

section Steps

variable {steps count last : Nat} {cell : SlotCell α} {next : σ}

theorem sift_of_kept (ne : slot ≠ 0) (hcell : t.cell slot = .ok cell)
    (answer : (keep slot).run start = (true, next)) :
    sift keep b (steps + 1) count last slot t start =
      sift keep b steps count slot cell.next (t.link b last slot) next := by
  rw [sift, if_neg ne, hcell, answer]
  rfl

theorem sift_of_rejected (ne : slot ≠ 0) (hcell : t.cell slot = .ok cell)
    (answer : (keep slot).run start = (false, next)) (hdrop : t.drop slot = .ok t') :
    sift keep b (steps + 1) count last slot t start =
      sift keep b steps (count + 1) last cell.next t' next := by
  rw [sift, if_neg ne, hcell, answer, hdrop]
  rfl

end Steps

/-- How far a chain is sifted. The slots that were kept lead from the head of the bucket to some
slot, and those ahead lead from the present slot to the end. -/
structure Sifting (t : SlotTable α) (b : Nat) (kept : List Nat) (slot : Nat) (rest : List Nat) :
    Prop extends Slotted t where
  bucket : b < t.buckets.size
  before : ∃ e, Leads t.slots (t.head b) kept e
  ahead : Leads t.slots slot rest 0
  nodup : (kept ++ rest).Nodup
  used : ∀ s ∈ rest, (t.get? s).isSome

namespace Sifting

variable {x : Nat}

/-- The end of what was kept is linked. -/
theorem leads_link (h : t.Sifting b kept slot rest) (next : Nat) :
    Leads (t.link b (kept.getLastD 0) next).slots ((t.link b (kept.getLastD 0) next).head b) kept
      next := by
  obtain ⟨e, before⟩ := h.before
  exact SlotTable.leads_link h.bucket (h.nodup.sublist (List.sublist_append_left kept rest)) before

/-- The present slot is the first one ahead, and it holds a value. -/
theorem present (h : t.Sifting b kept slot (x :: rest)) :
    slot = x ∧ x ≠ 0 ∧ ∃ v next, t.cell x = .ok ⟨some v, next⟩ ∧ t.get? x = some v ∧
      SlotTable.nextAt t.slots x = some next ∧ Leads t.slots next rest 0 := by
  obtain ⟨v, hv⟩ := Option.isSome_iff_exists.1 (h.used x List.mem_cons_self)
  obtain ⟨next, hcell⟩ := h.toSlotted.cell_eq_ok hv
  cases h.ahead with
  | next ne link ahead =>
    have next_eq := nextAt_of_cell hcell
    cases link.symm.trans next_eq
    exact ⟨rfl, ne, v, next, hcell, hv, next_eq, ahead⟩

/-- The slots ahead of the present one are others, and none of them was kept. -/
theorem apart (h : t.Sifting b kept slot (x :: rest)) : x ∉ kept ∧ x ∉ rest ∧
    ∀ s ∈ rest, s ∉ kept := by
  obtain ⟨-, later, disjoint⟩ := List.nodup_append.1 h.nodup
  exact ⟨fun hs => disjoint x hs x List.mem_cons_self rfl, (List.nodup_cons.1 later).1,
    fun s hs hs' => disjoint s hs' s (List.mem_cons_of_mem x hs) rfl⟩

/-- A slot that is kept is linked to the last one that was. -/
theorem accept (h : t.Sifting b kept slot (x :: rest)) {next : Nat}
    (link : SlotTable.nextAt t.slots x = some next) (ne : x ≠ 0)
    (ahead : Leads t.slots next rest 0) :
    (t.link b (kept.getLastD 0) x).Sifting b (kept ++ [x]) next rest := by
  obtain ⟨fresh, -, others⟩ := h.apart
  exact {
    toSlotted := h.toSlotted.link _ _ _
    bucket := by
      rw [size_buckets_link]
      exact h.bucket
    before := by
      refine ⟨next, (h.leads_link x).append (.next ne ?_ (.here next))⟩
      rw [nextAt_link_getLastD ne fresh, link]
    ahead := leads_link_of_disjoint ahead others
    nodup := by simpa using h.nodup
    used := fun s hs => by
      rw [get?_link]
      exact h.used s (List.mem_cons_of_mem x hs) }

/-- A slot that is rejected is emptied, and the last one that was kept still names it. -/
theorem reject (h : t.Sifting b kept slot (x :: rest)) {next : Nat} (held : t.get? x = some v)
    (ahead : Leads t.slots next rest 0) : (t.vacate x).Sifting b kept next rest := by
  obtain ⟨fresh, here, -⟩ := h.apart
  have pruned := pruned_vacate h.toSlotted held b
  exact {
    toSlotted := pruned.slotted
    bucket := h.bucket
    before := by
      obtain ⟨e, before⟩ := h.before
      refine ⟨e, pruned.leads before fun s hs eq => ?_⟩
      exact fresh (List.mem_singleton.1 eq ▸ hs)
    ahead := pruned.leads ahead fun s hs eq => here (List.mem_singleton.1 eq ▸ hs)
    nodup := h.nodup.sublist ((List.sublist_cons_self x rest).append_left kept)
    used := fun s hs => by
      rw [pruned.get?, if_neg]
      · exact h.used s (List.mem_cons_of_mem x hs)
      · exact fun eq => here (List.mem_singleton.1 eq ▸ hs) }

end Sifting

/-- **Sifting a chain keeps the slots that are not rejected in it, in their order.** -/
theorem sift_eq_ok (keep : Nat → StateM σ Bool) {steps : Nat} (h : t.Sifting b kept slot rest)
    (enough : rest.length < steps) (count : Nat) (start : σ) :
    ∃ dropped t', sift keep b steps count (kept.getLastD 0) slot t start =
        .ok ((count + dropped.length, t'), ((rest.filterM keep).run start).2) ∧
      (((rest.filterM keep).run start).1 ++ dropped).Perm rest ∧
      Leads t'.slots (t'.head b) (kept ++ ((rest.filterM keep).run start).1) 0 ∧
      Pruned t b (kept ++ rest) dropped t' := by
  -- The induction is on the slots ahead. Those kept so far are `kept`, and the last of them waits
  -- for its link.
  induction rest generalizing t kept slot steps count start with
  | nil =>
    obtain ⟨steps, rfl⟩ := Nat.exists_eq_add_one_of_ne_zero (Nat.ne_zero_of_lt enough)
    obtain rfl : slot = 0 := by
      cases h.ahead
      rfl
    refine ⟨[], t.link b (kept.getLastD 0) 0, by rw [sift, if_pos rfl]; rfl, .nil, ?_, ?_⟩
    · rw [run_filterM_nil, List.append_nil]
      exact h.leads_link 0
    · rw [List.append_nil]
      exact pruned_link h.toSlotted b kept 0
  | cons x rest ih =>
    obtain ⟨steps, rfl⟩ := Nat.exists_eq_add_one_of_ne_zero (Nat.ne_zero_of_lt enough)
    obtain ⟨rfl, ne, v, next, hcell, held, link, ahead⟩ := h.present
    have enough := Nat.lt_of_succ_lt_succ enough
    rw [run_filterM_cons]
    cases eq : (keep slot).run start with
    | mk answer state =>
      cases answer with
      -- The slot is linked behind those kept, and joins them.
      | true =>
        obtain ⟨dropped, t', run, perm, chain, pruned⟩ :=
          ih (h.accept link ne ahead) enough count state
        refine ⟨dropped, t', ?_, perm.cons slot, by simpa using chain, ?_⟩
        · rw [List.getLastD_concat] at run
          exact (sift_of_kept ne hcell eq).trans run
        · rw [List.append_assoc] at pruned
          exact ((pruned_link h.toSlotted b kept slot).mono fun s hs =>
            List.mem_append_left _ hs).trans pruned
      -- The slot is emptied; the link that names it stays until the next slot is kept.
      | false =>
        obtain ⟨dropped, t', run, perm, chain, pruned⟩ :=
          ih (h.reject held ahead) enough (count + 1) state
        refine ⟨slot :: dropped, t', ?_, List.perm_middle.trans (perm.cons slot), chain, ?_⟩
        · rw [sift_of_rejected ne hcell eq (drop_eq_ok hcell), run, List.length_cons,
            Nat.add_right_comm, Nat.add_assoc]
        · have first : Pruned t b (kept ++ slot :: rest) [slot] (t.vacate slot) :=
            (pruned_vacate h.toSlotted held b).mono fun s hs => by
              rw [List.mem_singleton.1 hs]
              simp
          have later : Pruned (t.vacate slot) b (kept ++ slot :: rest) dropped t' :=
            pruned.mono fun s hs => by
              rcases List.mem_append.1 hs with hs | hs <;> simp [hs]
          exact first.trans later

variable [Hashable α]

/-- A chain without the slots that are rejected is the chain of its bucket again, and the other
chains are as they were. -/
theorem Listed.pruned {kept : List Nat} (h : t.Listed loose chain)
    (pruned : Pruned t b (chain b) dropped t') (perm : (kept ++ dropped).Perm (chain b))
    (leads : Leads t'.slots (t'.head b) kept 0) :
    t'.Listed loose (Function.update chain b kept) := by
  have nodup : (kept ++ dropped).Nodup := perm.nodup_iff.2 (h.linked b).nodup
  have stays {s b' : Nat} (hs : s ∈ Function.update chain b kept b') :
      s ∈ chain b' ∧ s ∉ dropped := by
    by_cases eq : b' = b
    · subst eq
      rw [Function.update_self] at hs
      exact ⟨perm.subset (List.mem_append_left _ hs), fun hs' =>
        (List.nodup_append.1 nodup).2.2 s hs s hs' rfl⟩
    · rw [Function.update_of_ne eq] at hs
      exact ⟨hs, fun hs' => eq (h.eq_of_mem hs (perm.subset (List.mem_append_right _ hs')))⟩
  -- Only the chain of `b` loses slots, and no slot of another chain is in it.
  refine {
    linked := fun b' => ?_
    member := fun {b' s} hs => ?_
    found := fun {s v} hs ne => ?_ }
  · by_cases eq : b' = b
    · subst eq
      rwa [Function.update_self]
    · rw [Function.update_of_ne eq, pruned.head b' eq]
      exact pruned.leads (h.linked b') fun s hs hs' => eq (h.eq_of_mem hs hs')
  · obtain ⟨hs, here⟩ := stays hs
    obtain ⟨ne, v, hv, eq⟩ := h.member hs
    exact ⟨ne, v, by rw [pruned.get?, if_neg here, hv], by rw [bucketOf_congr pruned.buckets, eq]⟩
  · rw [pruned.get?] at hs
    split at hs
    next => cases hs
    next here =>
      have old := h.found hs ne
      rw [bucketOf_congr pruned.buckets]
      by_cases eq : t.bucketOf v = b
      · rw [eq] at old ⊢
        rw [Function.update_self]
        exact (List.mem_append.1 (perm.symm.subset old)).resolve_right here
      · rwa [Function.update_of_ne eq]

/-- A consistent table without some values that are not loose is consistent if chains list the
others. -/
theorem Consistent.without (h : t.Consistent loose) (less : Without t dropped t')
    (slotted : t'.Slotted) (listed : t'.Listed loose chain) (apart : loose ∉ dropped) :
    t'.Consistent loose where
  toSlotted := slotted
  nonempty := less.buckets ▸ h.nonempty
  loose_used ne := by
    rw [less.get?, if_neg apart]
    exact h.loose_used ne
  listed := ⟨chain, listed⟩
  unique := by
    intro s s' v hs hs' ne ne'
    rw [less.get?] at hs hs'
    split at hs
    · cases hs
    · split at hs'
      · cases hs'
      · exact h.unique hs hs' ne ne'

theorem siftBucket_eq_ok (keep : Nat → StateM σ Bool) (h : t.Consistent loose)
    (listed : t.Listed loose chain) (hb : b < t.buckets.size) (count : Nat) (start : σ) :
    ∃ dropped t', siftBucket keep ((count, t), start) b =
        .ok ((count + dropped.length, t'), (((chain b).filterM keep).run start).2) ∧
      ((((chain b).filterM keep).run start).1 ++ dropped).Perm (chain b) ∧
      Without t dropped t' ∧ t'.Consistent loose ∧
      t'.Listed loose (Function.update chain b (((chain b).filterM keep).run start).1) := by
  have leads := listed.linked b
  have used (s : Nat) (hs : s ∈ chain b) : (t.get? s).isSome := by
    obtain ⟨-, v, hv, -⟩ := listed.member hs
    rw [hv]
    rfl
  have enough := leads.length_lt h.size_pos
  have sifting : t.Sifting b [] (t.head b) (chain b) :=
    ⟨h.toSlotted, hb, ⟨_, .here _⟩, leads, leads.nodup, used⟩
  obtain ⟨dropped, t', run, perm, leads', pruned⟩ := sift_eq_ok keep sifting enough count start
  rw [List.nil_append] at pruned leads'
  have listed' := listed.pruned pruned perm leads'
  have apart : loose ∉ dropped := fun mem =>
    (listed.member (perm.subset (List.mem_append_right _ mem))).1 rfl
  exact ⟨dropped, t', run, perm, pruned.toWithout,
    h.without pruned.toWithout pruned.slotted listed' apart, listed'⟩

/-! ## All buckets -/

/-- Sifting some buckets asks for the slots of their chains, one chain after the other. -/
theorem foldlM_siftBucket_eq_ok (keep : Nat → StateM σ Bool) {bs : List Nat}
    (h : t.Consistent loose) (listed : t.Listed loose chain) (nodup : bs.Nodup)
    (hbs : ∀ b ∈ bs, b < t.buckets.size) (count : Nat) (start : σ) :
    ∃ dropped t', bs.foldlM (siftBucket keep) ((count, t), start) =
        .ok ((count + dropped.length, t'), (((bs.flatMap chain).filterM keep).run start).2) ∧
      ((((bs.flatMap chain).filterM keep).run start).1 ++ dropped).Perm (bs.flatMap chain) ∧
      Without t dropped t' ∧ t'.Consistent loose := by
  induction bs generalizing t chain count start with
  | nil => exact ⟨[], t, rfl, .nil, ⟨fun s => by simp, rfl, rfl, rfl⟩, h⟩
  | cons b bs ih =>
    obtain ⟨fresh, nodup⟩ := List.nodup_cons.1 nodup
    obtain ⟨dropped, t₁, run, perm, less, h₁, listed₁⟩ := siftBucket_eq_ok keep h listed
      (hbs b List.mem_cons_self) count start
    -- Sifting one bucket leaves the chains of the others as they are.
    have others : bs.flatMap (Function.update chain b (((chain b).filterM keep).run start).1) =
        bs.flatMap chain := by
      refine List.flatMap_congr fun b' hb' => Function.update_of_ne ?_ _ _
      rintro rfl
      exact fresh hb'
    obtain ⟨dropped', t', run', perm', less', h'⟩ := ih h₁ listed₁ nodup
      (fun b' hb' => less.buckets ▸ hbs b' (List.mem_cons_of_mem _ hb')) (count + dropped.length)
      (((chain b).filterM keep).run start).2
    rw [others] at run' perm'
    rw [List.flatMap_cons, run_filterM_append]
    refine ⟨dropped ++ dropped', t', ?_, ?_, less.trans less', h'⟩
    · rw [List.foldlM_cons, run]
      refine run'.trans ?_
      rw [List.length_append, Nat.add_assoc]
    · refine List.Perm.trans ?_ (perm.append perm')
      simp only [List.append_assoc]
      refine List.Perm.append_left _ ?_
      rw [← List.append_assoc, ← List.append_assoc]
      exact List.perm_append_comm.append_right _

theorem Listed.order_eq (h : t.Listed loose chain) (sentry : 0 < t.slots.size) :
    t.order = (List.range t.buckets.size).flatMap chain :=
  List.flatMap_congr fun b _ => (h.linked b).follow_eq ((h.linked b).length_lt sentry)

theorem Consistent.nodup_order (h : t.Consistent loose) : t.order.Nodup := by
  obtain ⟨chain, listed⟩ := h.listed
  rw [listed.order_eq h.size_pos]
  refine List.nodup_flatMap.2 ⟨fun b _ => (listed.linked b).nodup, ?_⟩
  refine List.nodup_range.imp fun {b b'} ne => ?_
  exact fun s hs hs' => ne (listed.eq_of_mem hs hs')

/-- The chains visit the slots that hold values, but for the loose one. -/
theorem Consistent.mem_order (h : t.Consistent loose) :
    s ∈ t.order ↔ (t.get? s).isSome ∧ s ≠ loose := by
  obtain ⟨chain, listed⟩ := h.listed
  rw [listed.order_eq h.size_pos, List.mem_flatMap]
  constructor
  · rintro ⟨b, -, hs⟩
    obtain ⟨ne, v, hv, -⟩ := listed.member hs
    exact ⟨by rw [hv]; rfl, ne⟩
  · rintro ⟨hs, ne⟩
    obtain ⟨v, hv⟩ := Option.isSome_iff_exists.1 hs
    exact ⟨t.bucketOf v, List.mem_range.2 (h.bucketOf_lt v), listed.found hv ne⟩

/-- **A test is asked once for every slot that a chain visits, and the rejected slots are dropped**,
for any test with a state of its own. -/
theorem Consistent.retainWith_eq_ok (h : t.Consistent loose) (keep : Nat → StateM σ Bool)
    (start : σ) : ∃ dropped t', t.retainWith keep start =
        .ok ((dropped.length, t'), ((t.order.filterM keep).run start).2) ∧
      (((t.order.filterM keep).run start).1 ++ dropped).Perm t.order ∧
      Without t dropped t' ∧ t'.Consistent loose := by
  obtain ⟨chain, listed⟩ := h.listed
  rw [listed.order_eq h.size_pos]
  obtain ⟨dropped, t', run, perm, less, h'⟩ := foldlM_siftBucket_eq_ok keep h listed
    List.nodup_range (fun b hb => List.mem_range.1 hb) 0 start
  exact ⟨dropped, t', by rw [retainWith, run, Nat.zero_add], perm, less, h'⟩

/-- What is not kept of a list without repetitions is dropped. -/
theorem mem_dropped_iff {order kept : List Nat} (perm : (kept ++ dropped).Perm order)
    (nodup : order.Nodup) : s ∈ dropped ↔ s ∈ order ∧ s ∉ kept := by
  obtain ⟨-, -, apart⟩ := List.nodup_append.1 (perm.nodup_iff.2 nodup)
  rw [← perm.mem_iff, List.mem_append]
  exact ⟨fun hs => ⟨.inr hs, fun hs' => apart s hs' s hs rfl⟩, fun h => h.1.resolve_left h.2⟩

/-! ## Tests without a state -/

/-- What is left of a table when the slots that a test rejects are dropped. -/
structure Retained (t : SlotTable α) (loose : Nat) (keep : Nat → Bool) (count : Nat)
    (t' : SlotTable α) : Prop where
  get? : ∀ s, t'.get? s = if s ≠ loose ∧ keep s = false then none else t.get? s
  capacity : t'.capacity = t.capacity
  realSize : t.realSize = t'.realSize + count
  consistent : t'.Consistent loose

/-- **Dropping values keeps a table consistent.** -/
theorem Consistent.retain_eq_ok (h : t.Consistent loose) (keep : Nat → Bool) :
    ∃ count t', t.retain keep = .ok (count, t') ∧ Retained t loose keep count t' := by
  obtain ⟨dropped, t', run, perm, less, h'⟩ := h.retainWith_eq_ok (fun s => pure (keep s)) ()
  rw [run_filterM_pure] at run perm
  refine ⟨dropped.length, t', by rw [retain, run]; rfl, fun s => ?_, less.capacity,
    less.realSize.symm, h'⟩
  rw [less.get?]
  simp only [mem_dropped_iff perm h.nodup_order, List.mem_filter, h.mem_order]
  cases t.get? s <;> cases keep s <;> simp

end ZoneDiagram.SlotTable
