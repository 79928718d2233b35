import Mathlib.Data.List.Nodup
import Mathlib.Data.List.Perm.Subperm
import ZoneDiagram.SlotTable

/-!
# Chains of slots

`Leads slots s l e` says that the links from slot `s` on visit the slots of `l`, none of them zero,
and arrive at `e`. A chain that arrives at zero is determined by its first slot, so it visits no
slot twice and has fewer slots than the table (`Leads.nodup`, `Leads.length_lt`).

A chain is changed only by links of its own slots. `link` makes the last slot of a chain, or the
bucket if the chain is empty, name another slot, and every other chain stays as it was.
-/

namespace ZoneDiagram.SlotTable

variable {α : Type} {slots slots' : Array (SlotCell α)} {t : SlotTable α} {v : α}
  {s e b b' last slot : Nat} {l l' kept : List Nat}

/-- The slot that another one names as the next. -/
def nextAt (slots : Array (SlotCell α)) (s : Nat) : Option Nat := slots[s]?.map (·.next)

/-- What a slot holds, if it was ever handed out: a value, or nothing. -/
def heldAt (slots : Array (SlotCell α)) (s : Nat) : Option (Option α) := slots[s]?.map (·.held)

/-- The links from a slot on visit the slots of a list and arrive at a last one. -/
inductive Leads (slots : Array (SlotCell α)) : Nat → List Nat → Nat → Prop
  | here (s : Nat) : Leads slots s [] s
  | next {s n e : Nat} {l : List Nat} (ne : s ≠ 0) (link : nextAt slots s = some n)
      (rest : Leads slots n l e) : Leads slots s (s :: l) e

namespace Leads

theorem ne_zero (h : Leads slots s l e) (hx : slot ∈ l) : slot ≠ 0 := by
  induction h with
  | here => cases hx
  | next ne _ _ ih =>
    rcases List.mem_cons.1 hx with rfl | hx
    · exact ne
    · exact ih hx

theorem lt_size (h : Leads slots s l e) (hx : slot ∈ l) : slot < slots.size := by
  induction h with
  | here => cases hx
  | next _ link _ ih =>
    rcases List.mem_cons.1 hx with rfl | hx
    · obtain ⟨cell, hcell, -⟩ := Option.map_eq_some_iff.1 link
      exact (Array.getElem?_eq_some_iff.1 hcell).1
    · exact ih hx

theorem append {m : Nat} (h : Leads slots s l m) (h' : Leads slots m l' e) :
    Leads slots s (l ++ l') e := by
  induction h with
  | here => exact h'
  | next ne link _ ih => exact .next ne link (ih h')

/-- A chain goes on from every slot that it visits. -/
theorem of_append (h : Leads slots s (l ++ slot :: l') e) : Leads slots slot (slot :: l') e := by
  induction l generalizing s with
  | nil =>
    cases h with
    | next ne link rest => exact .next ne link rest
  | cons x l ih =>
    cases h with
    | next _ _ rest => exact ih rest

theorem unique (h : Leads slots s l 0) (h' : Leads slots s l' 0) : l = l' := by
  induction l generalizing s l' with
  | nil =>
    cases h
    cases h' with
    | here => rfl
    | next ne => exact absurd rfl ne
  | cons x l ih =>
    cases h with
    | next ne link rest =>
      cases h' with
      | here => exact absurd rfl ne
      | next _ link' rest' =>
        cases link.symm.trans link'
        rw [ih rest rest']

theorem nodup (h : Leads slots s l 0) : l.Nodup := by
  induction l generalizing s with
  | nil => exact List.nodup_nil
  | cons x l ih =>
    cases h with
    | next ne link rest =>
      refine List.nodup_cons.2 ⟨fun again => ?_, ih rest⟩
      -- The chain from the second visit on would be the same as from the first.
      obtain ⟨before, after, rfl⟩ := List.append_of_mem again
      have same := rest.of_append.unique (.next ne link rest)
      have := congrArg List.length same
      simp only [List.length_cons, List.length_append] at this
      omega

theorem length_lt (h : Leads slots s l 0) (nonempty : 0 < slots.size) :
    l.length < slots.size := by
  have apart : (0 :: l).Nodup := List.nodup_cons.2 ⟨fun hz => h.ne_zero hz rfl, h.nodup⟩
  have within : 0 :: l ⊆ List.range slots.size := by
    intro x hx
    rw [List.mem_range]
    rcases List.mem_cons.1 hx with rfl | hx
    · exact nonempty
    · exact h.lt_size hx
  have := (List.subperm_of_subset apart within).length_le
  rwa [List.length_cons, List.length_range] at this

theorem congr (h : Leads slots s l e) (same : ∀ x ∈ l, nextAt slots' x = nextAt slots x) :
    Leads slots' s l e := by
  induction h with
  | here => exact .here _
  | next ne link _ ih =>
    refine .next ne ((same _ List.mem_cons_self).trans link) (ih fun x hx => ?_)
    exact same x (List.mem_cons_of_mem _ hx)

/-- A chain whose last slot names another one arrives there. -/
theorem relink {m : Nat} (h : Leads slots s (l ++ [last]) m) (fresh : last ∉ l)
    (link : nextAt slots' last = some e)
    (same : ∀ x, x ≠ last → nextAt slots' x = nextAt slots x) :
    Leads slots' s (l ++ [last]) e := by
  induction l generalizing s with
  | nil =>
    cases h with
    | next ne _ _ => exact .next ne link (.here e)
  | cons x l ih =>
    obtain ⟨ne, fresh⟩ := not_or.1 (List.mem_cons.not.1 fresh)
    cases h with
    | next ne' link' rest =>
      exact .next ne' ((same x (Ne.symm ne)).trans link') (ih rest fresh)

end Leads

/-! ## Following a chain -/

/-- The slots on the way from a slot, for a number of steps. -/
def follow (slots : Array (SlotCell α)) : Nat → Nat → List Nat
  | 0, _ => []
  | steps + 1, s =>
    if s = 0 then []
    else s :: match nextAt slots s with
      | none => []
      | some next => follow slots steps next

theorem Leads.follow_eq {steps : Nat} (h : Leads slots s l 0) (enough : l.length < steps) :
    follow slots steps s = l := by
  induction l generalizing s steps with
  | nil =>
    obtain ⟨steps, rfl⟩ := Nat.exists_eq_add_one_of_ne_zero (Nat.ne_zero_of_lt enough)
    cases h
    rfl
  | cons x l ih =>
    obtain ⟨steps, rfl⟩ := Nat.exists_eq_add_one_of_ne_zero (Nat.ne_zero_of_lt enough)
    cases h with
    | next ne link rest =>
      rw [follow, if_neg ne, link]
      exact congrArg _ (ih rest (Nat.lt_of_succ_lt_succ enough))

/-- The slots that the chains visit, bucket by bucket. -/
def order (t : SlotTable α) : List Nat :=
  (List.range t.buckets.size).flatMap fun b => follow t.slots t.slots.size (t.head b)

/-! ## Changing a link -/

@[simp] theorem capacity_link (t : SlotTable α) (b last slot : Nat) :
    (t.link b last slot).capacity = t.capacity := by
  unfold link
  split <;> rfl

@[simp] theorem free_link (t : SlotTable α) (b last slot : Nat) :
    (t.link b last slot).free = t.free := by
  unfold link
  split <;> rfl

@[simp] theorem realSize_link (t : SlotTable α) (b last slot : Nat) :
    (t.link b last slot).realSize = t.realSize := by
  unfold link
  split <;> rfl

@[simp] theorem size_slots_link (t : SlotTable α) (b last slot : Nat) :
    (t.link b last slot).slots.size = t.slots.size := by
  unfold link
  split
  · rfl
  · exact Array.size_modify

@[simp] theorem size_buckets_link (t : SlotTable α) (b last slot : Nat) :
    (t.link b last slot).buckets.size = t.buckets.size := by
  unfold link
  split
  · exact Array.size_setIfInBounds
  · rfl

/-- A link does not change what the slots hold. -/
@[simp] theorem heldAt_link (t : SlotTable α) (b last slot s : Nat) :
    heldAt (t.link b last slot).slots s = heldAt t.slots s := by
  unfold link heldAt
  split
  · rfl
  · rw [Array.getElem?_modify]
    split
    · rw [Option.map_map]
      rfl
    · rfl

theorem nextAt_link (h : s ≠ last) :
    nextAt (t.link b last slot).slots s = nextAt t.slots s := by
  unfold link
  split
  · rfl
  · rw [nextAt, Array.getElem?_modify, if_neg (Ne.symm h), nextAt]

theorem nextAt_link_self (ne : last ≠ 0) (h : last < t.slots.size) :
    nextAt (t.link b last slot).slots last = some slot := by
  rw [link, if_neg ne, nextAt, Array.getElem?_modify, if_pos rfl, Array.getElem?_eq_getElem h]
  rfl

theorem head_link_of_ne (ne : b' ≠ b) : (t.link b last slot).head b' = t.head b' := by
  unfold link
  split
  · rw [head, Array.getD_eq_getD_getElem?, Array.getElem?_setIfInBounds, if_neg (Ne.symm ne), head,
      Array.getD_eq_getD_getElem?]
  · rfl

theorem head_link_of_ne_zero (ne : last ≠ 0) : (t.link b last slot).head b = t.head b := by
  rw [link, if_neg ne]
  rfl

theorem head_link_zero (hb : b < t.buckets.size) : (t.link b 0 slot).head b = slot := by
  rw [link, if_pos rfl, head, Array.getD_eq_getD_getElem?, Array.getElem?_setIfInBounds,
    if_pos rfl, if_pos hb]
  rfl

theorem getLastD_mem (ne : kept.getLastD 0 ≠ 0) : kept.getLastD 0 ∈ kept := by
  rw [List.getLastD_eq_getLast?] at ne ⊢
  cases eq : kept.getLast? with
  | none =>
    rw [eq] at ne
    exact absurd rfl ne
  | some last => exact List.mem_of_getLast? eq

/-- The slots outside of a chain keep their links when its end is linked. -/
theorem nextAt_link_getLastD (ne : s ≠ 0) (fresh : s ∉ kept) :
    nextAt (t.link b (kept.getLastD 0) slot).slots s = nextAt t.slots s := by
  apply nextAt_link
  rintro rfl
  exact fresh (getLastD_mem ne)

/-- **The chain of a bucket goes on where its end is linked to.** -/
theorem leads_link (hb : b < t.buckets.size) (nodup : kept.Nodup)
    (h : Leads t.slots (t.head b) kept e) :
    Leads (t.link b (kept.getLastD 0) slot).slots ((t.link b (kept.getLastD 0) slot).head b) kept
      slot := by
  rcases List.eq_nil_or_concat kept with rfl | ⟨init, last, rfl⟩
  · rw [List.getLastD_nil, head_link_zero hb]
    exact .here slot
  · rw [List.concat_eq_append] at h nodup ⊢
    have fresh : last ∉ init := fun hl => by
      exact (List.nodup_append.1 nodup).2.2 last hl last (List.mem_singleton_self _) rfl
    have mem : last ∈ init ++ [last] := List.mem_append_right _ (List.mem_singleton_self _)
    have ne : last ≠ 0 := h.ne_zero mem
    rw [List.getLastD_concat, head_link_of_ne_zero ne]
    exact h.relink fresh (nextAt_link_self ne (h.lt_size mem)) fun x hx => nextAt_link hx

/-- A chain of other slots stays when the end of a chain is linked. -/
theorem leads_link_of_disjoint (h : Leads t.slots s l e) (apart : ∀ x ∈ l, x ∉ kept) :
    Leads (t.link b (kept.getLastD 0) slot).slots s l e :=
  h.congr fun x hx => nextAt_link_getLastD (h.ne_zero hx) (apart x hx)

end ZoneDiagram.SlotTable
