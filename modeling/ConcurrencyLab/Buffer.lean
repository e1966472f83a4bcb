import ConcurrencyLab.Router

/-!
# ConcurrencyLab.Buffer

The data structures of one router, apart from its control: what the triple
buffer and the select list look like whenever the thread may be observed.

* `TripleBuffer.Valid` — three distinct vectors of consecutive epochs, the slot
  of a vector being its epoch modulo 3; reads after writes (`curr_writeNext`,
  `curr_cycle`, …) are `simp`-style equations under it.
* `SelectList.Valid` — entries 2 and on name each neighbour exactly once,
  however the swaps have permuted them; `Pending` says which neighbours are
  still offered the current vector, and the rest of the development only
  speaks about `Pending`.
-/

namespace ConcurrencyLab

variable {n : Nat}

/-! ## the triple buffer -/

namespace TripleBuffer

/-- The vectors of router `index` between two steps. -/
structure Valid (index : Fin n) (b : TripleBuffer n) : Prop where
  src : ∀ slot, (b.states slot).src = index
  epoch_pos : 0 < b.curr.epoch
  epoch_next : b.next.epoch = b.curr.epoch + 1
  epoch_prev : b.prev.epoch + 1 = b.curr.epoch
  curr_slot : b.currState.val = b.curr.epoch % 3
  next_slot : b.nextState.val = (b.curr.epoch + 1) % 3
  prev_slot : b.prevState.val = (b.curr.epoch + 2) % 3
  curr_le_prev : ∀ k, b.curr.dist k ≤ b.prev.dist k

variable {index : Fin n} {b : TripleBuffer n}

theorem valid_init (T : Topology n) (index : Fin n) : (init T index).Valid index := by
  constructor <;> simp [init, curr, next, prev]

namespace Valid

theorem curr_ne_next (h : b.Valid index) : b.currState ≠ b.nextState := by
  have h₁ := h.curr_slot; have h₂ := h.next_slot
  intro he; rw [he] at h₁; omega

theorem prev_ne_next (h : b.Valid index) : b.prevState ≠ b.nextState := by
  have h₁ := h.prev_slot; have h₂ := h.next_slot
  intro he; rw [he] at h₁; omega

theorem curr_ne_prev (h : b.Valid index) : b.currState ≠ b.prevState := by
  have h₁ := h.curr_slot; have h₂ := h.prev_slot
  intro he; rw [he] at h₁; omega

/-- There is no fourth vector. -/
theorem slot_cases (h : b.Valid index) (slot : Fin 3) :
    slot = b.currState ∨ slot = b.nextState ∨ slot = b.prevState := by
  have h₁ := h.curr_slot; have h₂ := h.next_slot; have h₃ := h.prev_slot
  simp only [Fin.ext_iff]
  omega

/-- The slot of a vector is its epoch modulo 3: this is what equal epochs read
through two addresses say about the addresses. -/
theorem slot_eq (h : b.Valid index) (slot : Fin 3) : slot.val = (b.states slot).epoch % 3 := by
  have h₁ := h.curr_slot; have h₂ := h.next_slot; have h₃ := h.prev_slot
  have hn := h.epoch_next; have hp := h.epoch_prev
  rcases h.slot_cases slot with rfl | rfl | rfl
  · exact h₁
  · rw [h₂]; simp only [next] at hn; omega
  · rw [h₃]; simp only [prev] at hp; omega

end Valid

/-! ### writing next_state -/

@[simp] theorem next_writeNext (k : Fin n) (d : Nat) (b : TripleBuffer n) :
    (b.writeNext k d).next = { b.next with dist := Function.update b.next.dist k d } := by
  simp [writeNext, next]

theorem Valid.curr_writeNext (h : b.Valid index) (k : Fin n) (d : Nat) :
    (b.writeNext k d).curr = b.curr := by
  simp [writeNext, curr, h.curr_ne_next]

theorem Valid.prev_writeNext (h : b.Valid index) (k : Fin n) (d : Nat) :
    (b.writeNext k d).prev = b.prev := by
  simp [writeNext, prev, h.prev_ne_next]

theorem Valid.writeNext (h : b.Valid index) (k : Fin n) (d : Nat) :
    (b.writeNext k d).Valid index := by
  have hc := h.curr_writeNext k d
  have hp := h.prev_writeNext k d
  constructor
  case src =>
    intro slot
    by_cases hs : slot = b.nextState
    · subst hs
      simpa [TripleBuffer.writeNext, next] using h.src b.nextState
    · simpa [TripleBuffer.writeNext, hs] using h.src slot
  case epoch_pos => rw [hc]; exact h.epoch_pos
  case epoch_next => rw [next_writeNext, hc]; exact h.epoch_next
  case epoch_prev => rw [hp, hc]; exact h.epoch_prev
  case curr_slot => rw [hc]; exact h.curr_slot
  case next_slot => rw [hc]; exact h.next_slot
  case prev_slot => rw [hc]; exact h.prev_slot
  case curr_le_prev => rw [hc, hp]; exact h.curr_le_prev

/-! ### cycling -/

theorem Valid.curr_cycle (h : b.Valid index) : b.cycle.curr = b.next := by
  simp [cycle, curr, next, h.prev_ne_next.symm]

theorem Valid.prev_cycle (h : b.Valid index) : b.cycle.prev = b.curr := by
  simp [cycle, curr, prev, h.curr_ne_prev]

@[simp] theorem next_cycle (b : TripleBuffer n) :
    b.cycle.next = { b.prev with epoch := b.next.epoch + 1 } := by
  simp [cycle, next]

theorem Valid.cycle (h : b.Valid index) (hle : ∀ k, b.next.dist k ≤ b.curr.dist k) :
    b.cycle.Valid index := by
  have hc := h.curr_cycle
  have hp := h.prev_cycle
  have hn := h.epoch_next
  have h₁ := h.curr_slot; have h₂ := h.next_slot; have h₃ := h.prev_slot
  constructor
  case src =>
    intro slot
    by_cases hs : slot = b.prevState
    · subst hs
      simpa [TripleBuffer.cycle, prev] using h.src b.prevState
    · simpa [TripleBuffer.cycle, hs] using h.src slot
  case epoch_pos => rw [hc]; omega
  case epoch_next => rw [next_cycle, hc]
  case epoch_prev => rw [hp, hc]; exact hn.symm
  case curr_slot => rw [hc, hn]; exact h₂
  case next_slot => rw [hc, hn]; exact h₃
  case prev_slot => rw [hc, hn]; simp only [TripleBuffer.cycle]; omega
  case curr_le_prev => rw [hc, hp]; exact hle

end TripleBuffer

/-! ## the select list -/

namespace SelectList

/-- The router whose driver the SCHDLE entry `m` names. -/
def target (l : SelectList n) (m : Nat) : Option (Fin n) :=
  match l.entries[m]? with
  | some ⟨.drivers j, .schdle, _⟩ => some j
  | _ => none

/-- The select list of router `index` while it broadcasts the vector in
`slot`. -/
structure Valid (T : Topology n) (index : Fin n) (slot : Fin 3) (l : SelectList n) : Prop where
  total : l.totalSelectCount = 2 + (T.neighbors index).length
  length : l.entries.length = l.totalSelectCount
  two_le : 2 ≤ l.selectCount
  le_total : l.selectCount ≤ l.totalSelectCount
  done : (l.entries[0]?).map (fun e => (e.driver, e.op)) = some (.doneDriver, .handle)
  own : (l.entries[1]?).map (fun e => (e.driver, e.op)) = some (.drivers index, .handle)
  entry : ∀ m, 2 ≤ m → m < l.totalSelectCount →
    ∃ j, T.IsNeighbor index j ∧ l.entries[m]? = some ⟨.drivers j, .schdle, some ⟨index, slot⟩⟩
  inj : ∀ {m m' j}, l.target m = some j → l.target m' = some j → m = m'
  surj : ∀ {j}, T.IsNeighbor index j → ∃ m, l.target m = some j

/-- Router `j` has not yet accepted the vector being broadcast. -/
def Pending (l : SelectList n) (j : Fin n) : Prop := ∃ m, m < l.selectCount ∧ l.target m = some j

variable {T : Topology n} {index : Fin n} {slot : Fin 3} {l : SelectList n}

theorem target_eq_some {m : Nat} {j : Fin n} :
    l.target m = some j ↔ ∃ job, l.entries[m]? = some ⟨.drivers j, .schdle, job⟩ := by
  unfold target
  split
  · next j' job he => simp [he]
  · next hne =>
    constructor
    · intro h; contradiction
    · rintro ⟨job, he⟩; exact absurd he (hne j job)

namespace Valid

/-- Only entries from 2 on are SCHDLE entries. -/
theorem two_le_of_entry (h : l.Valid T index slot) {m : Nat} {j : Fin n} {job : Job n}
    (he : l.entries[m]? = some ⟨.drivers j, .schdle, job⟩) : 2 ≤ m := by
  have hdone := h.done
  have hown := h.own
  rcases m with _ | _ | m
  · simp [he] at hdone
  · simp [he] at hown
  · omega

theorem lt_total_of_entry (h : l.Valid T index slot) {m : Nat} {e : Select n}
    (he : l.entries[m]? = some e) : m < l.totalSelectCount := by
  rw [← h.length]
  exact (List.getElem?_eq_some_iff.mp he).1

/-- A SCHDLE entry carries the address of the vector being broadcast, to a
neighbour. -/
theorem entry_eq (h : l.Valid T index slot) {m : Nat} {j : Fin n} {job : Job n}
    (he : l.entries[m]? = some ⟨.drivers j, .schdle, job⟩) :
    T.IsNeighbor index j ∧ job = some ⟨index, slot⟩ := by
  obtain ⟨j', hj', he'⟩ := h.entry m (h.two_le_of_entry he) (h.lt_total_of_entry he)
  rw [he] at he'
  cases he'
  exact ⟨hj', rfl⟩

/-- No SCHDLE entry is offered when only the two HANDLE entries are. -/
theorem not_offered_of_two (h : l.Valid T index slot) (hc : l.selectCount = 2) {m : Nat}
    {j : Fin n} {job : Job n} (hm : m < l.selectCount) :
    l.entries[m]? ≠ some ⟨.drivers j, .schdle, job⟩ := by
  intro he
  have := h.two_le_of_entry he
  omega

/-- Nothing is pending then. -/
theorem not_pending_of_two (h : l.Valid T index slot) (hc : l.selectCount = 2) (j : Fin n) :
    ¬ l.Pending j := by
  rintro ⟨m, hm, ht⟩
  obtain ⟨job, he⟩ := target_eq_some.mp ht
  exact h.not_offered_of_two hc hm he

/-- An offered SCHDLE entry exists when more than the two HANDLE entries are
offered. -/
theorem exists_entry_of_two_lt (h : l.Valid T index slot) (hc : 2 < l.selectCount) :
    ∃ m j, m < l.selectCount ∧ T.IsNeighbor index j ∧
      l.entries[m]? = some ⟨.drivers j, .schdle, some ⟨index, slot⟩⟩ := by
  have hle := h.le_total
  obtain ⟨j, hj, he⟩ := h.entry 2 (Nat.le_refl 2) (by omega)
  exact ⟨2, j, hc, hj, he⟩

/-- Everything is pending when the whole list is offered. -/
theorem pending_of_total (h : l.Valid T index slot) (hc : l.selectCount = l.totalSelectCount)
    {j : Fin n} (hj : T.IsNeighbor index j) : l.Pending j := by
  obtain ⟨m, ht⟩ := h.surj hj
  obtain ⟨job, he⟩ := target_eq_some.mp ht
  exact ⟨m, by rw [hc]; exact h.lt_total_of_entry he, ht⟩

end Valid

/-! ### initialisation -/

theorem entries_init (T : Topology n) (index : Fin n) (m : Nat) :
    (init T index).entries[m + 2]? =
      ((T.neighbors index)[m]?).map fun j => ⟨.drivers j, .schdle, some ⟨index, 1⟩⟩ := by
  simp [init]

theorem nodup_neighbors (T : Topology n) (index : Fin n) : (T.neighbors index).Nodup :=
  (List.nodup_finRange n).filter _

theorem target_init {T : Topology n} {index : Fin n} {m : Nat} {j : Fin n} :
    (init T index).target m = some j ↔ ∃ m', m = m' + 2 ∧ (T.neighbors index)[m']? = some j := by
  rw [target_eq_some]
  constructor
  · rintro ⟨job, he⟩
    rcases m with _ | _ | m
    · simp [init] at he
    · simp [init] at he
    · rw [entries_init, Option.map_eq_some_iff] at he
      obtain ⟨j', hj', he'⟩ := he
      cases he'
      exact ⟨m, rfl, hj'⟩
  · rintro ⟨m', rfl, hj⟩
    exact ⟨some ⟨index, 1⟩, by rw [entries_init, hj]; rfl⟩

theorem valid_init (T : Topology n) (index : Fin n) : (init T index).Valid T index 1 := by
  constructor
  case total => rfl
  case length => simp [init]; omega
  case two_le => simp [init]
  case le_total => simp [init]
  case done => simp [init]
  case own => simp [init]
  case entry =>
    intro m hm hlt
    obtain ⟨m', rfl⟩ := Nat.exists_eq_add_of_le' hm
    have hlt' : m' < (T.neighbors index).length := by simp only [init] at hlt; omega
    refine ⟨(T.neighbors index)[m'], ?_, ?_⟩
    · exact (T.mem_neighbors index _).mp (List.getElem_mem hlt')
    · rw [entries_init, List.getElem?_eq_getElem hlt']; rfl
  case inj =>
    intro m m' j h h'
    obtain ⟨a, rfl, ha⟩ := target_init.mp h
    obtain ⟨b, rfl, hb⟩ := target_init.mp h'
    have hlt := (List.getElem?_eq_some_iff.mp ha).1
    have hab := (List.getElem?_inj hlt (nodup_neighbors T index)).mp (ha.trans hb.symm)
    rw [hab]
  case surj =>
    intro j hj
    obtain ⟨m, hm⟩ := List.getElem?_of_mem ((T.mem_neighbors index j).mpr hj)
    exact ⟨m + 2, target_init.mpr ⟨m, rfl, hm⟩⟩

/-! ### storing a received job -/

theorem entries_storeJob (job : Job n) (l : SelectList n) (m : Nat) :
    (l.storeJob job).entries[m]? =
      (l.entries[m]?).map fun e => if m = 1 then { e with job := job } else e := by
  simp only [storeJob, List.getElem?_modify]
  by_cases hm : m = 1
  · simp [hm]
  · simp [hm, Ne.symm hm]

theorem Valid.target_storeJob (h : l.Valid T index slot) (job : Job n) (m : Nat) :
    (l.storeJob job).target m = l.target m := by
  by_cases hm : m = 1
  · subst hm
    have hown := h.own
    cases he : l.entries[1]? with
    | none => simp [he] at hown
    | some e =>
        obtain ⟨driver, op, job'⟩ := e
        simp only [he, Option.map_some, Option.some.injEq, Prod.mk.injEq] at hown
        obtain ⟨rfl, rfl⟩ := hown
        simp [target, entries_storeJob, he]
  · simp [target, entries_storeJob, hm]

theorem Valid.storeJob (h : l.Valid T index slot) (job : Job n) :
    (l.storeJob job).Valid T index slot := by
  constructor
  case total => exact h.total
  case length => simpa [SelectList.storeJob] using h.length
  case two_le => exact h.two_le
  case le_total => exact h.le_total
  case done => simpa [entries_storeJob] using h.done
  case own => simpa [entries_storeJob, Function.comp_def] using h.own
  case entry =>
    intro m hm hlt
    obtain ⟨j, hj, he⟩ := h.entry m hm hlt
    have hm1 : m ≠ 1 := by omega
    exact ⟨j, hj, by rw [entries_storeJob, he]; simp [hm1]⟩
  case inj =>
    intro m m' j h₁ h₂
    rw [h.target_storeJob] at h₁ h₂
    exact h.inj h₁ h₂
  case surj =>
    intro j hj
    obtain ⟨m, ht⟩ := h.surj hj
    exact ⟨m, by rw [h.target_storeJob]; exact ht⟩

theorem Valid.pending_storeJob (h : l.Valid T index slot) (job : Job n) (j : Fin n) :
    (l.storeJob job).Pending j ↔ l.Pending j := by
  simp only [Pending, h.target_storeJob]
  rfl

/-! ### removing a performed entry -/

/-- Entries that differ in their drivers only trade places when their drivers
are swapped. -/
theorem swapDrivers_getElem? {entries : List (Select n)} {a b : Nat} {da db : DriverRef n}
    {op : Operation} {job : Job n} (ha : entries[a]? = some ⟨da, op, job⟩)
    (hb : entries[b]? = some ⟨db, op, job⟩) (m : Nat) :
    (swapDrivers entries a b)[m]? = entries[if m = a then b else if m = b then a else m]? := by
  have hla := (List.getElem?_eq_some_iff.mp ha).1
  have hlb := (List.getElem?_eq_some_iff.mp hb).1
  simp only [swapDrivers, ha, hb, List.getElem?_set, List.length_set]
  by_cases hmb : b = m
  · subst hmb
    by_cases hab : b = a
    · subst hab
      rw [ha] at hb
      cases hb
      simp [hlb, ← ha]
    · simp [hlb, hab, ha]
  · by_cases hma : a = m
    · subst hma; simp [hmb, hla, hb]
    · simp [hmb, hma, Ne.symm hmb, Ne.symm hma]

section Remove

variable {m : Nat} {j : Fin n} {job : Job n}

/-- Where an entry of the list after `remove` comes from. -/
def removeSource (l : SelectList n) (m a : Nat) : Nat :=
  if a = l.selectCount - 1 then m else if a = m then l.selectCount - 1 else a

theorem Valid.entries_remove (h : l.Valid T index slot) (hm : m < l.selectCount)
    (he : l.entries[m]? = some ⟨.drivers j, .schdle, job⟩) (a : Nat) :
    (l.remove m).entries[a]? = l.entries[removeSource l m a]? := by
  have hm2 := h.two_le_of_entry he
  have hle := h.le_total
  obtain ⟨-, rfl⟩ := h.entry_eq he
  obtain ⟨j', -, he'⟩ := h.entry (l.selectCount - 1) (by omega) (by omega)
  exact swapDrivers_getElem? he' he a

theorem Valid.target_remove (h : l.Valid T index slot) (hm : m < l.selectCount)
    (he : l.entries[m]? = some ⟨.drivers j, .schdle, job⟩) (a : Nat) :
    (l.remove m).target a = l.target (removeSource l m a) := by
  simp only [target, h.entries_remove hm he]

theorem removeSource_removeSource (l : SelectList n) (m a : Nat) :
    removeSource l m (removeSource l m a) = a := by
  grind [removeSource]

theorem Valid.remove (h : l.Valid T index slot) (hm : m < l.selectCount)
    (he : l.entries[m]? = some ⟨.drivers j, .schdle, job⟩) :
    (l.remove m).Valid T index slot := by
  have hm2 := h.two_le_of_entry he
  have hle := h.le_total
  constructor
  case total => exact h.total
  case length =>
    have hlen := h.length
    simp only [SelectList.remove, swapDrivers]
    split
    · simpa using hlen
    · exact hlen
  case two_le => simp only [SelectList.remove]; omega
  case le_total => simp only [SelectList.remove]; omega
  case done =>
    rw [h.entries_remove hm he]
    have hs : removeSource l m 0 = 0 := by grind [removeSource]
    rw [hs]; exact h.done
  case own =>
    rw [h.entries_remove hm he]
    have hs : removeSource l m 1 = 1 := by grind [removeSource]
    rw [hs]; exact h.own
  case entry =>
    intro a ha hlt
    rw [h.entries_remove hm he]
    refine h.entry _ ?_ ?_
    · grind [removeSource]
    · simp only [SelectList.remove] at hlt
      grind [removeSource]
  case inj =>
    intro a b i ha hb
    rw [h.target_remove hm he] at ha hb
    have hab := h.inj ha hb
    rw [← removeSource_removeSource l m a, hab, removeSource_removeSource]
  case surj =>
    intro i hi
    obtain ⟨a, ha⟩ := h.surj hi
    refine ⟨removeSource l m a, ?_⟩
    rw [h.target_remove hm he, removeSource_removeSource]
    exact ha

/-- The neighbour whose entry was performed is no longer pending, every other
one is as before. -/
theorem Valid.pending_remove (h : l.Valid T index slot) (hm : m < l.selectCount)
    (he : l.entries[m]? = some ⟨.drivers j, .schdle, job⟩) (i : Fin n) :
    (l.remove m).Pending i ↔ l.Pending i ∧ i ≠ j := by
  have hm2 := h.two_le_of_entry he
  have ht : l.target m = some j := target_eq_some.mpr ⟨job, he⟩
  constructor
  · rintro ⟨a, ha, hta⟩
    rw [h.target_remove hm he] at hta
    simp only [SelectList.remove] at ha
    refine ⟨⟨removeSource l m a, ?_, hta⟩, ?_⟩
    · grind [removeSource]
    · rintro rfl
      -- the performed entry now stands outside the offered part
      have hsrc := h.inj hta ht
      grind [removeSource]
  · rintro ⟨⟨a, ha, hta⟩, hne⟩
    have ham : a ≠ m := by
      rintro rfl
      rw [ht] at hta
      exact hne (Option.some.inj hta).symm
    refine ⟨removeSource l m a, ?_, ?_⟩
    · simp only [SelectList.remove]
      grind [removeSource]
    · rw [h.target_remove hm he, removeSource_removeSource]
      exact hta

end Remove

/-! ### arming the list again -/

theorem entries_rearm (job : Job n) (l : SelectList n) (m : Nat) :
    (l.rearm job).entries[m]? = (l.entries[m]?).map fun e =>
      if 2 ≤ m ∧ m < l.totalSelectCount then { e with job := job } else e := by
  simp [rearm]

theorem target_rearm (job : Job n) (l : SelectList n) (m : Nat) :
    (l.rearm job).target m = l.target m := by
  unfold target
  rw [entries_rearm]
  cases l.entries[m]? with
  | none => rfl
  | some e =>
      obtain ⟨driver, op, job'⟩ := e
      rw [Option.map_some]
      by_cases hm : 2 ≤ m ∧ m < l.totalSelectCount
      · rw [if_pos hm]; cases driver <;> cases op <;> rfl
      · rw [if_neg hm]

theorem Valid.rearm (h : l.Valid T index slot) (slot' : Fin 3) :
    (l.rearm (some ⟨index, slot'⟩)).Valid T index slot' := by
  have hle := h.le_total
  have h2 := h.two_le
  constructor
  case total => exact h.total
  case length => simpa [SelectList.rearm] using h.length
  case two_le => simp only [SelectList.rearm]; omega
  case le_total => simp [SelectList.rearm]
  case done => simpa [entries_rearm] using h.done
  case own => simpa [entries_rearm] using h.own
  case entry =>
    intro m hm hlt
    obtain ⟨j, hj, he⟩ := h.entry m hm hlt
    refine ⟨j, hj, ?_⟩
    have hcond : 2 ≤ m ∧ m < l.totalSelectCount := ⟨hm, hlt⟩
    rw [entries_rearm, he]
    simp [hcond]
  case inj =>
    intro m m' j h₁ h₂
    rw [target_rearm] at h₁ h₂
    exact h.inj h₁ h₂
  case surj =>
    intro j hj
    obtain ⟨m, ht⟩ := h.surj hj
    exact ⟨m, by rw [target_rearm]; exact ht⟩

end SelectList

end ConcurrencyLab
