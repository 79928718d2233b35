import ZoneDiagram.Proofs.CacheTransparency
import ZoneDiagram.Proofs.Containment
import ZoneDiagram.Proofs.Manager.Repeat
import ZoneDiagram.Proofs.Wider.Layers
import ZoneDiagram.Proofs.Wider.Search

/-!
# More clocks do not disturb diagrams

A client may add clocks at any time. Then the cache is empty, every matrix that a computation makes
has more rows, and a path may be longer.

**Theorem (`Reachable.undisturbed`).** What is computed from live diagrams does not change when
clocks are added: reductions, combinations, diagrams of matrices, containment and extraction have
the same results, handle by handle and entry by entry, and they leave the same nodes in the same
slots. If they are asked for before and after clocks are added, then both results are the same.

The computation among more clocks follows the one among fewer clocks (`wider`), which does not need
what the cache loses (`Agrees`). Its result is there when clocks are added later, so it is found
again (`Repeats`).
-/

namespace ZoneDiagram.Manager

variable {m m₁ : Manager} {α : Type} {x : ManagerM α} {n : Nat} {f g : Handle}

/-- What the computation gives is the same before and after clocks are added. -/
structure Undisturbed (m : Manager) (n : Nat) (x : ManagerM α) : Prop where
  /-- If clocks are added first, then the result is the same, and so are all nodes. -/
  instead {a m₁} (run : x m = .ok a m₁) :
    ∃ m₂, (do addClocks n; x : ManagerM α) m = .ok a m₂ ∧ m₂.store = m₁.store
  /-- If clocks are added afterwards, and the computation is repeated, it gives no other result. -/
  again {a b m₁ m₂} (run : x m = .ok a m₁)
    (rerun : (do addClocks n; x : ManagerM α) m₁ = .ok b m₂) : b = a

/-! ## Adding clocks -/

/-- The nodes of a sound manager test pairs of its clocks. -/
theorem Sound.leveled (hm : m.Sound) : Leveled m.clocks m where
  clocks := rfl
  level {slot node} held := by
    by_cases terminal : slot = Handle.one.slot
    · rw [terminal, hm.wellFormed.terminal] at held
      cases held
      exact .inl rfl
    · exact .inr (hm.wellFormed.canonical held terminal).2

theorem addClocks_of_le (few : m.clocks + n ≤ maxClocks) :
    addClocks n m = .ok ⟨⟩ ((m.withCache m.cache.clear).withClocks (m.clocks + n)) := by
  obtain ⟨-, eq⟩ | ⟨e, full, -⟩ := addClocks_cases n m
  · exact eq
  · cases full.symm.trans (clocksPlus_eq_ok_iff.2 ⟨few, rfl⟩)

section Undisturbed

variable (hm : m.Sound) (few : m.clocks + n ≤ maxClocks)

include hm few

/-- After clocks are added, the computation has the same result and leaves the same nodes. -/
theorem Sound.run_of_wider {a : α} (agrees : m.Agrees x)
    (wide : (wider m.clocks (m.clocks + n)).Rel x x Eq) (run : x m = .ok a m₁) :
    ∃ c, x (after (addClocks n) m) = .ok a ((m₁.withCache c).withClocks (m.clocks + n)) := by
  obtain ⟨c, cleared⟩ := agrees.exists_of_ok hm hm.trusts_clear run
  have leveled : Leveled m.clocks (m.withCache m.cache.clear) := ⟨rfl, hm.leveled.level⟩
  obtain ⟨-, _, ran, rfl⟩ := wide leveled cleared
  rw [after_of_ok (addClocks_of_le few)]
  exact ⟨c, ran⟩

theorem Sound.undisturbed_of_wider (grows : ∀ {m'}, m'.Sound → m.Keeps m' → m'.Grows (after x m'))
    (repeats : ∀ {m'}, m'.Sound → m.Keeps m' → m'.Repeats x) (agrees : m.Agrees x)
    (wide : (wider m.clocks (m.clocks + n)).Rel x x Eq) : m.Undisturbed n x where
  instead {a m₁} run := by
    obtain ⟨c, ran⟩ := hm.run_of_wider few agrees wide run
    rw [after_of_ok (addClocks_of_le few)] at ran
    exact ⟨_, (bind_of_ok (addClocks_of_le few)).trans ran, rfl⟩
  again {a b m₁ m₂} run rerun := by
    have grows₁ : m.Grows m₁ := after_of_ok run ▸ grows hm (.refl m)
    have clocks := grows₁.keeps.clocks
    have few₁ : m₁.clocks + n ≤ maxClocks := clocks ▸ few
    have sound := sound_addClocks grows₁.sound n
    rw [after_of_ok (addClocks_of_le few₁)] at sound
    rw [bind_of_ok (addClocks_of_le few₁)] at rerun
    -- The first result among more clocks is on a manager that the second one extends.
    have sound' := sound_addClocks hm n
    have keeps := keeps_addClocks n m
    obtain ⟨c, ran⟩ := hm.run_of_wider few agrees wide run
    have grows' := after_of_ok ran ▸ grows sound' keeps
    have later : ((m₁.withCache c).withClocks (m.clocks + n)).Grows
        ((m₁.withCache m₁.cache.clear).withClocks (m₁.clocks + n)) :=
      ⟨⟨congrArg (· + n) clocks, rfl, fun h => h⟩, sound⟩
    exact repeats sound' keeps ran grows' later rerun

theorem Sound.undisturbed_contains (pos : 1 ≤ m.clocks) (f : Handle) (zone : Dbm) :
    m.Undisturbed n (query (·.contains f zone)) := by
  have same {a m₁} (run : query (·.contains f zone) m = .ok a m₁) :
      m₁ = m ∧ (do addClocks n; query (·.contains f zone) : ManagerM Bool) m =
        .ok a ((m.withCache m.cache.clear).withClocks (m.clocks + n)) := by
    rw [query_apply] at run
    split at run
    next answer =>
      cases run
      obtain ⟨_, answer', rfl⟩ :=
        wider_contains hm.leveled hm.few pos (Nat.le_add_right _ n) f zone _ answer
      rw [← contains_withCache _ m.cache.clear] at answer'
      exact ⟨rfl, (bind_of_ok (addClocks_of_le few)).trans (query_of_ok answer')⟩
    next => cases run
  refine ⟨fun run => ?_, fun run rerun => ?_⟩
  · obtain ⟨rfl, ran⟩ := same run
    exact ⟨_, ran, rfl⟩
  · obtain ⟨rfl, ran⟩ := same run
    cases ran.symm.trans rerun
    rfl

end Undisturbed

/-! ## The theorem -/

/-- **More clocks do not disturb diagrams.** -/
theorem Reachable.undisturbed (h : m.Reachable) (pos : 1 ≤ m.clocks)
    (few : m.clocks + n ≤ maxClocks) (hf : m.Live f) (hg : m.Live g) :
    m.Undisturbed n (reduce f) ∧ m.Undisturbed n (reduceByLayers f) ∧
      (∀ op, m.Undisturbed n (apply op f g)) ∧ (∀ op, m.Undisturbed n (applyReduce op f g)) ∧
      (∀ zone, m.Undisturbed n (ofDbm zone)) ∧
      (∀ zone, m.Undisturbed n (query (·.contains f zone))) ∧
      ∀ dim, m.Undisturbed n (extract f dim) := by
  have hm := h.sound
  have le : m.clocks ≤ m.clocks + n := Nat.le_add_right _ _
  refine ⟨?reduce, ?layers, fun op => ?apply, fun op => ?applyReduce, fun zone => ?zone,
    fun zone => hm.undisturbed_contains few pos f zone, fun dim => ?extract⟩
  case reduce =>
    exact hm.undisturbed_of_wider few
      (fun h keeps => (reduce_runs h (keeps.live hf)).grows_after)
      (fun h keeps => h.repeats_reduce (keeps.live hf)) (reduce_agrees hm hf)
      (wider_reduce hm.few pos le)
  case layers =>
    exact hm.undisturbed_of_wider few
      (fun h keeps => (reduceByLayers_runs h (keeps.live hf)).grows_after)
      (fun h keeps => h.repeats_reduceByLayers (keeps.live hf))
      (steady_compositional.reduceByLayers f).agrees (wider_reduceByLayers hm.few pos le f)
  case apply =>
    exact hm.undisturbed_of_wider few
      (fun h keeps => (h.determines_apply op (keeps.live hf) (keeps.live hg)).grows_after)
      (fun h keeps => h.repeats_apply (keeps.live hf) op (keeps.live hg))
      (apply_agrees hm hf hg) (wider_apply le)
  case applyReduce =>
    exact hm.undisturbed_of_wider few
      (fun h keeps => (applyReduce_runs h (keeps.live hf) (keeps.live hg)).grows_after)
      (fun h keeps => h.repeats_applyReduce (keeps.live hf) op (keeps.live hg))
      (applyReduce_agrees hm hf hg) (wider_applyReduce hm.few pos le)
  case zone =>
    exact hm.undisturbed_of_wider few (fun h _ => (ofDbm_runs h zone).grows_after)
      (fun h _ => h.repeats_ofDbm zone) (steady_ofDbm zone).agrees
      (wider_ofDbm (fun _ hm' => hm'.checkDim pos le zone.dim) rfl rfl)
  case extract =>
    exact hm.undisturbed_of_wider few
      (fun h keeps => (extract_runs h (keeps.live hf) dim).grows_after)
      (fun h keeps => h.repeats_extract (keeps.live hf) dim) (extract_agrees hm hf dim)
      (wider_extract hm.few pos le f dim)

/-- The box reduces to the same diagram before and after clocks are added. What is outside of it
contains the same wedge, and the same zone is extracted from it. -/
theorem undisturbed_box :
    (∃ m₁ m₂, reduce ⟨-7⟩ box = .ok ⟨-5⟩ m₁ ∧
      (do addClocks 2; reduce ⟨-7⟩ : ManagerM Handle) m₁ = .ok ⟨-5⟩ m₂) ∧
    (∃ m₂, (do addClocks 2; query (·.contains ⟨7⟩ wedge) : ManagerM Bool) box = .ok true m₂) ∧
    ∃ ex m₁ m₂, extract ⟨7⟩ 2 box = .ok ex m₁ ∧
      (do addClocks 2; extract ⟨7⟩ 2 : ManagerM Extraction) box = .ok ex m₂ ∧
      m₂.store = m₁.store := by
  have few : 1 ≤ box.clocks ∧ box.clocks + 2 ≤ maxClocks := by decide +kernel
  refine ⟨?_, ?_⟩
  · obtain ⟨reduce, -⟩ := reachable_box.undisturbed few.1 few.2 live_box live_box
    have twice : (result? (do let _ ← Manager.reduce ⟨-7⟩; addClocks 2; Manager.reduce ⟨-7⟩)
        box).isSome = true := by decide +kernel
    obtain ⟨r, m₁, run, found⟩ := exists_of_isSome_bind twice
    obtain ⟨r', found⟩ := Option.isSome_iff_exists.1 found
    obtain ⟨m₂, rerun⟩ := exists_of_result? found
    obtain ⟨_, first⟩ := exists_of_result? reduce_box
    cases first.symm.trans run
    cases reduce.again run rerun
    exact ⟨m₁, m₂, run, rerun⟩
  · obtain ⟨-, -, -, -, -, contains, extract⟩ :=
      reachable_box.undisturbed few.1 few.2 live_box.neg live_box
    obtain ⟨m₂, answer, -⟩ := (contains wedge).instead (query_of_ok contains_box_wedge)
    obtain ⟨-, ⟨-, extracted⟩, -⟩ := evaluate_zones
    obtain ⟨ex, extracted⟩ := Option.isSome_iff_exists.1 extracted
    obtain ⟨m₁, run⟩ := exists_of_result? extracted
    obtain ⟨m₃, ran, store⟩ := (extract 2).instead run
    exact ⟨⟨m₂, answer⟩, ex, m₁, m₃, run, ran, store⟩

end ZoneDiagram.Manager
