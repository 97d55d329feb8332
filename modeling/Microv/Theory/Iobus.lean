import Microv.Core.Iobus
import Microv.Lib.Bounded
import Microv.Lib.LinkedList

/-!
# Bus Lists

What linking and unlinking do to the lists, and what a lookup finds in them.

`Listing` names the list of every bus and says that each region on a list
knows the bus it is on. Under it the lists share no region, and the two
operations act on one list only: registering a region that is on no list puts
it in front, and deregistering takes it out of the list of the bus it was
last put on, leaving the order of the others and every other list alone.

A lookup returns the first region of the list that covers the address.

## Main definitions

* `Iobus.nextOf`: The links between the regions.
* `Listing`: The lists of all buses.

## Theorems

* `Listing.register`: Registering puts a region in front.
* `Listing.deregister`: Deregistering ends, and takes a region out.
* `Listing.find`: A lookup ends, with the first region that covers.
* `Listing.handled`, `Listing.handled_inv`: What an access is given to.
-/

namespace Microv

variable {β ρ : Type} {s t : Iobus β ρ} {lists : β → List ρ}

/-- The links between the regions. -/
def Iobus.nextOf (s : Iobus β ρ) (r : ρ) : Option ρ := (s.region r).next

/-- The buses' lists are `lists`, and a region on one is on the bus it says. -/
structure Listing (s : Iobus β ρ) (lists : β → List ρ) : Prop where
  linked : ∀ b, LinkedList s.nextOf (s.head b) (lists b)
  owned : ∀ b, ∀ r ∈ lists b, (s.region r).bus = some b

/-- Two states whose regions lie at the same addresses. -/
def SamePlaces (s t : Iobus β ρ) : Prop :=
  ∀ r, (t.region r).base = (s.region r).base ∧ (t.region r).len = (s.region r).len

/-- A region is on one list at most. -/
theorem Listing.bus_eq (h : Listing s lists) {b b' : β} {r : ρ} (hr : r ∈ lists b)
    (hr' : r ∈ lists b') : b = b' :=
  Option.some.inj ((h.owned b r hr).symm.trans (h.owned b' r hr'))

/-- Only the links of the regions on the lists matter. -/
theorem Listing.congr (h : Listing s lists) (hhead : t.head = s.head)
    (hregion : ∀ b, ∀ r ∈ lists b, (t.region r).next = (s.region r).next
      ∧ (t.region r).bus = (s.region r).bus) : Listing t lists where
  linked := fun b => by
    rw [hhead]
    exact (h.linked b).congr (fun r hr => (hregion b r hr).1)
  owned := fun b r hr => (hregion b r hr).2.trans (h.owned b r hr)

/-- Setting up a region that is on no list. -/
theorem Listing.init [DecidableEq ρ] (h : Listing s lists) {r : ρ} (hr : ∀ b, r ∉ lists b)
    (base len : Nat) : Listing (regionInit s r base len) lists := by
  refine h.congr rfl ?_
  intro b q hq
  have hqr : q ≠ r := by
    rintro rfl
    exact hr b hq
  simp only [regionInit, Function.update_of_ne hqr, and_self]

section Register

variable [DecidableEq β] [DecidableEq ρ]

theorem nextOf_register (s : Iobus β ρ) (b : β) (r : ρ) :
    (iobusRegisterRegion s b r).nextOf = Function.update s.nextOf r (s.head b) := by
  funext q
  unfold Iobus.nextOf iobusRegisterRegion
  by_cases hq : q = r
  · subst hq
    simp only [Function.update_self]
  · simp only [Function.update_of_ne hq]

theorem register_region_of_ne (s : Iobus β ρ) (b : β) {r q : ρ} (hq : q ≠ r) :
    (iobusRegisterRegion s b r).region q = s.region q := by
  unfold iobusRegisterRegion
  exact Function.update_of_ne hq _ _

theorem samePlaces_register (s : Iobus β ρ) (b : β) (r : ρ) :
    SamePlaces s (iobusRegisterRegion s b r) := by
  intro q
  by_cases hq : q = r
  · subst hq
    simp only [iobusRegisterRegion, Function.update_self, and_self]
  · rw [register_region_of_ne s b hq]
    exact ⟨rfl, rfl⟩

theorem register_region_bus (s : Iobus β ρ) (b : β) (r : ρ) :
    ((iobusRegisterRegion s b r).region r).bus = some b := by
  simp only [iobusRegisterRegion, Function.update_self]

/-- Registering a region that is on no list puts it in front of the bus's. -/
theorem Listing.register (h : Listing s lists) (b : β) {r : ρ} (hr : ∀ b', r ∉ lists b') :
    Listing (iobusRegisterRegion s b r) (Function.update lists b (r :: lists b)) where
  linked := fun b' => by
    rw [nextOf_register]
    by_cases hb : b' = b
    · subst hb
      simp only [iobusRegisterRegion, Function.update_self]
      exact (h.linked b').push (hr b')
    · simp only [iobusRegisterRegion, Function.update_of_ne hb]
      exact (h.linked b').update_of_notMem (hr b') _
  owned := fun b' q hq => by
    by_cases hqr : q = r
    · -- The region is on no list but the one it was just put on.
      have hb : b' = b := by
        by_contra hb
        rw [Function.update_of_ne hb] at hq
        exact hr b' (hqr ▸ hq)
      rw [hqr, hb, register_region_bus]
    · rw [register_region_of_ne s b hqr]
      by_cases hb : b' = b
      · subst hb
        rw [Function.update_self] at hq
        exact h.owned b' q ((List.mem_cons.mp hq).resolve_left hqr)
      · rw [Function.update_of_ne hb] at hq
        exact h.owned b' q hq

/-- Setting up a region and putting it on a bus. -/
theorem Listing.initRegister (h : Listing s lists) (b : β) {r : ρ} (hr : ∀ b', r ∉ lists b')
    (base len : Nat) :
    Listing (iobusRegisterRegion (regionInit s r base len) b r)
      (Function.update lists b (r :: lists b)) :=
  (h.init hr base len).register b hr

end Register

section Deregister

/-- The place past the regions `l`, starting at `p`. -/
def linkPast (p : Link β ρ) (l : List ρ) : Link β ρ :=
  l.foldl (fun _ r => .next r) p

/-- The place past a part of the list links to what follows. -/
theorem deref_linkPast (p : Link β ρ) (l₁ l₂ : List ρ)
    (h : LinkedList s.nextOf (s.deref p) (l₁ ++ l₂)) : s.deref (linkPast p l₁) = l₂.head? := by
  induction l₁ generalizing p with
  | nil =>
      cases l₂ with
      | nil => exact h
      | cons q l₂ => exact h.1
  | cons q l₁ ih => exact ih (.next q) h.2

section

variable [DecidableEq ρ]

/-- The walk passes the regions before the one it looks for, and ends there if
    it has the steps. -/
theorem findLink_eq {r : ρ} (p : Link β ρ) (l₁ l₂ : List ρ) (fuel : Nat)
    (h : LinkedList s.nextOf (s.deref p) (l₁ ++ l₂)) (hr : r ∉ l₁) (hl : ∀ q ∈ l₂.head?, q = r) :
    iobusFindLink s r fuel p = if l₁.length < fuel then some (linkPast p l₁) else none := by
  induction fuel generalizing p l₁ with
  | zero => rw [iobusFindLink, if_neg (Nat.not_lt_zero _)]
  | succ fuel ih =>
      cases l₁ with
      | nil =>
          rw [if_pos (by simp only [List.length_nil, Nat.succ_pos]), iobusFindLink]
          cases l₂ with
          | nil =>
              have hp : s.deref p = none := h
              rw [hp]
              rfl
          | cons q l₂ =>
              have hp : s.deref p = some q := h.1
              have hq : q = r := hl q rfl
              rw [hp]
              exact if_pos hq
      | cons q l₁ =>
          -- Not the region looked for: the walk goes on from its link.
          have hp : s.deref p = some q := h.1
          have hq : q ≠ r := fun hq => hr (hq ▸ List.mem_cons_self)
          have hrec := ih (.next q) l₁ h.2 (fun hr' => hr (List.mem_cons_of_mem q hr'))
          rw [iobusFindLink, hp]
          simp only [if_neg hq, hrec, List.length_cons, Nat.succ_lt_succ_iff]
          rfl

end

variable [DecidableEq β] [DecidableEq ρ]

theorem nextOf_store_next (s : Iobus β ρ) (q : Option ρ) (j : ρ) :
    (s.store q (.next j)).nextOf = Function.update s.nextOf j q := by
  funext r
  unfold Iobus.nextOf Iobus.store
  by_cases hr : r = j
  · subst hr
    simp only [Function.update_self]
  · simp only [Function.update_of_ne hr]

theorem store_region (s : Iobus β ρ) (q : Option ρ) (p : Link β ρ) (r : ρ) :
    ((s.store q p).region r).base = (s.region r).base
      ∧ ((s.store q p).region r).len = (s.region r).len
      ∧ ((s.store q p).region r).bus = (s.region r).bus := by
  cases p with
  | head b => exact ⟨rfl, rfl, rfl⟩
  | next j =>
      unfold Iobus.store
      by_cases hr : r = j
      · subst hr
        simp only [Function.update_self, and_self]
      · simp only [Function.update_of_ne hr, and_self]

/-- Deregistering moves no region, whatever the links lead to. -/
theorem samePlaces_deregister {fuel : Nat} {r : ρ}
    (h : iobusDeregisterRegion fuel s r = some t) : SamePlaces s t := by
  unfold iobusDeregisterRegion at h
  split at h
  · rw [← Option.some.inj h]
    exact fun _ => ⟨rfl, rfl⟩
  · rcases Option.map_eq_some_iff.mp h with ⟨p, -, rfl⟩
    split
    · exact fun _ => ⟨rfl, rfl⟩
    · exact fun q => ⟨(store_region s _ p q).1, (store_region s _ p q).2.1⟩

/-- Redirecting the link to a region takes it out of its list. -/
theorem Listing.store (h : Listing s lists) {b : β} {r : ρ} {l₁ l₂ : List ρ}
    (hb : lists b = l₁ ++ r :: l₂) :
    Listing (s.store (s.region r).next (linkPast (.head b) l₁))
      (Function.update lists b (l₁ ++ l₂)) where
  linked := fun b' => by
    have hown := h.linked b
    rw [hb] at hown
    rcases List.eq_nil_or_concat' l₁ with rfl | ⟨l₀, j, rfl⟩
    · -- The region is the first one, and the head is redirected.
      by_cases hbb : b' = b
      · subst hbb
        simp only [linkPast, List.foldl_nil, Iobus.store, Function.update_self, List.nil_append]
        exact hown.2
      · simp only [linkPast, List.foldl_nil, Iobus.store, Function.update_of_ne hbb]
        exact h.linked b'
    · have hpast : linkPast (.head b) (l₀ ++ [j]) = (.next j : Link β ρ) := by
        simp only [linkPast, List.foldl_append, List.foldl_cons, List.foldl_nil]
      rw [List.append_assoc, List.singleton_append] at hown
      rw [hpast, nextOf_store_next]
      by_cases hbb : b' = b
      · subst hbb
        rw [Function.update_self, List.append_assoc, List.singleton_append]
        exact hown.unlink
      · -- The region whose link changes is on the list of `b` alone.
        have hj : j ∉ lists b' := by
          intro hj
          have hjb : j ∈ lists b := by
            rw [hb]
            simp only [List.mem_append, List.mem_singleton, or_true, true_or]
          exact hbb (h.bus_eq hj hjb)
        rw [Function.update_of_ne hbb]
        exact (h.linked b').update_of_notMem hj _
  owned := fun b' q hq => by
    rw [(store_region s _ _ q).2.2]
    by_cases hbb : b' = b
    · subst hbb
      rw [Function.update_self] at hq
      refine h.owned b' q ?_
      rw [hb]
      rcases List.mem_append.mp hq with hq | hq
      · exact List.mem_append_left _ hq
      · exact List.mem_append_right _ (List.mem_cons_of_mem r hq)
    · rw [Function.update_of_ne hbb] at hq
      exact h.owned b' q hq

/-- Deregistering walks past the regions before its own, and redirects the
    link found there if it is one. -/
theorem deregister_eq {b : β} {r : ρ} (hbus : (s.region r).bus = some b) (l₁ l₂ : List ρ)
    (h : LinkedList s.nextOf (s.head b) (l₁ ++ l₂)) (hr : r ∉ l₁) (hl : ∀ q ∈ l₂.head?, q = r)
    (fuel : Nat) :
    iobusDeregisterRegion fuel s r = if l₁.length < fuel
      then some (match l₂.head? with
        | none => s
        | some q => s.store (s.region q).next (linkPast (.head b) l₁))
      else none := by
  have hwalk := findLink_eq (.head b) l₁ l₂ fuel h hr hl
  have hderef := deref_linkPast (.head b) l₁ l₂ h
  rw [iobusDeregisterRegion, hbus]
  simp only [hwalk]
  by_cases hf : l₁.length < fuel
  · cases hhead : l₂.head? with
    | none => simp only [if_pos hf, Option.map_some, hderef, hhead]
    | some q => simp only [if_pos hf, Option.map_some, hderef, hhead]
  · simp only [if_neg hf, Option.map_none]

/-- Deregistering ends, and takes the region out of every list. -/
theorem Listing.deregister (h : Listing s lists) (r : ρ) :
    ∃ t, EndsWith (fun fuel => iobusDeregisterRegion fuel s r) t
      ∧ Listing t (fun b => (lists b).erase r) ∧ SamePlaces s t := by
  by_cases hr : ∃ b, r ∈ lists b
  · rcases hr with ⟨b, hr⟩
    rcases List.exists_erase_eq hr with ⟨l₁, l₂, hl₁, hl, he⟩
    have hlinked := h.linked b
    rw [hl] at hlinked
    have heq := deregister_eq (h.owned b r hr) l₁ (r :: l₂) hlinked hl₁
      (fun q hq => by simpa only [List.head?_cons, Option.mem_some_iff, eq_comm] using hq)
    have hlists : (fun b' => (lists b').erase r) = Function.update lists b (l₁ ++ l₂) := by
      funext b'
      by_cases hbb : b' = b
      · rw [hbb, he, Function.update_self]
      · rw [Function.update_of_ne hbb]
        exact List.erase_of_not_mem (fun hr' => hbb (h.bus_eq hr' hr))
    refine ⟨s.store (s.region r).next (linkPast (.head b) l₁), .of_ite heq, ?_, fun q => ?_⟩
    · rw [hlists]
      exact h.store hl
    · exact ⟨(store_region s _ _ q).1, (store_region s _ _ q).2.1⟩
  · -- A region that is on no list stays on none, and nothing changes.
    have hno : ∀ b, r ∉ lists b := fun b hb => hr ⟨b, hb⟩
    have hsame : (fun b => (lists b).erase r) = lists :=
      funext fun b => List.erase_of_not_mem (hno b)
    rw [hsame]
    refine ⟨s, ?_, h, fun _ => ⟨rfl, rfl⟩⟩
    rcases hbus : (s.region r).bus with _ | b
    · have heq : (fun fuel => iobusDeregisterRegion fuel s r) = fun _ => some s := by
        funext fuel
        rw [iobusDeregisterRegion, hbus]
      rw [heq]
      exact .const s
    · have hlinked := h.linked b
      rw [← List.append_nil (lists b)] at hlinked
      exact .of_ite (deregister_eq hbus (lists b) [] hlinked (hno b)
        (fun q hq => by simp only [List.head?_nil, Option.not_mem_none] at hq))

end Deregister

section Find

theorem findFrom_eq {p : Option ρ} {l : List ρ} (addr fuel : Nat) (h : LinkedList s.nextOf p l)
    (hf : l.length < fuel) :
    iobusFindFrom s addr fuel p = some (l.find? fun r => (s.region r).covers addr) := by
  induction l generalizing p fuel with
  | nil =>
      have hp : p = none := h
      cases fuel with
      | zero => exact absurd hf (Nat.not_lt_zero _)
      | succ fuel => rw [hp, iobusFindFrom, List.find?_nil]
  | cons r l ih =>
      cases fuel with
      | zero => exact absurd hf (Nat.not_lt_zero _)
      | succ fuel =>
          rw [h.1, iobusFindFrom]
          -- The first region that covers the address ends the walk.
          by_cases hc : (s.region r).covers addr
          · rw [if_pos hc, List.find?_cons, hc]
          · have hc' : (s.region r).covers addr = false := by simpa only [Bool.not_eq_true] using hc
            rw [if_neg hc, List.find?_cons, hc']
            exact ih fuel h.2 (Nat.lt_of_succ_lt_succ hf)

/-- A walk that ends with few steps ends the same way with more. -/
theorem findFrom_mono {p : Option ρ} {addr fuel : Nat} {q : Option ρ}
    (h : iobusFindFrom s addr fuel p = some q) (k : Nat) :
    iobusFindFrom s addr (fuel + k) p = some q := by
  induction fuel generalizing p with
  | zero => exact absurd h (by simp only [iobusFindFrom, reduceCtorEq, not_false_eq_true])
  | succ fuel ih =>
      rw [Nat.succ_add]
      cases p with
      | none => exact h
      | some r =>
          rw [iobusFindFrom] at h ⊢
          by_cases hc : (s.region r).covers addr
          · rw [if_pos hc] at h ⊢
            exact h
          · rw [if_neg hc] at h ⊢
            exact ih h

/-- Two walks that end, end the same way. -/
theorem handleIo_unique {b : β} {addr size fuel fuel' : Nat} {x y : Option (ρ × Nat)}
    (h : busHandleIo fuel s b addr size = some x) (h' : busHandleIo fuel' s b addr size = some y) :
    x = y := by
  rcases Option.map_eq_some_iff.mp h with ⟨q, hq, hx⟩
  rcases Option.map_eq_some_iff.mp h' with ⟨q', hq', hy⟩
  have hlong := findFrom_mono hq fuel'
  have hlong' := findFrom_mono hq' fuel
  rw [Nat.add_comm] at hlong'
  have hqq : q = q' := Option.some.inj (hlong.symm.trans hlong')
  rw [← hx, ← hy, hqq]

/-- On a list that ends a lookup ends, with the first region of the list that
    covers the address. -/
theorem find_ends {b : β} {l : List ρ} (hl : LinkedList s.nextOf (s.head b) l) (addr : Nat) :
    EndsWith (fun fuel => iobusFindRegion fuel s b addr)
      (l.find? fun r => (s.region r).covers addr) := by
  refine ⟨⟨l.length, fun fuel hf => findFrom_eq addr fuel hl hf⟩, ?_⟩
  intro fuel q hq
  have hlong := findFrom_mono hq (l.length + 1)
  rw [findFrom_eq addr _ hl (by omega), Option.some.injEq] at hlong
  exact hlong.symm

theorem Listing.find (h : Listing s lists) (b : β) (addr : Nat) :
    EndsWith (fun fuel => iobusFindRegion fuel s b addr)
      ((lists b).find? fun r => (s.region r).covers addr) :=
  find_ends (h.linked b) addr

/-- The last address of a region that is not empty and does not wrap. -/
theorem Region.last_eq (r : Region β ρ) (hlen : 0 < r.len) (hfit : r.base + r.len ≤ 2 ^ 64) :
    r.last = r.base + r.len - 1 := by
  unfold Region.last
  omega

theorem Region.covers_iff (r : Region β ρ) (hlen : 0 < r.len) (hfit : r.base + r.len ≤ 2 ^ 64)
    (addr : Nat) : r.covers addr = true ↔ r.base ≤ addr ∧ addr < r.base + r.len := by
  simp only [Region.covers, r.last_eq hlen hfit, Bool.and_eq_true, decide_eq_true_eq]
  omega

/-- A region is reached by an access that ends inside it, at the distance from
    its start. -/
theorem reached_inv {addr size o : Nat} {q : Option ρ} {r : ρ}
    (h : reached s addr size q = some (r, o)) :
    q = some r ∧ (addr + size + (2 ^ 64 - 1)) % 2 ^ 64 ≤ (s.region r).last ∧
      o = addr - (s.region r).base := by
  cases q with
  | none => exact absurd h (by simp only [reached, reduceCtorEq, not_false_eq_true])
  | some q =>
      rw [reached] at h
      by_cases hend : (addr + size + (2 ^ 64 - 1)) % 2 ^ 64 ≤ (s.region q).last
      · rw [if_pos hend] at h
        rcases Prod.mk.inj (Option.some.inj h) with ⟨rfl, rfl⟩
        exact ⟨rfl, hend, rfl⟩
      · rw [if_neg hend] at h
        exact absurd h (by simp only [reduceCtorEq, not_false_eq_true])

theorem handle_ends {b : β} {l : List ρ} (hl : LinkedList s.nextOf (s.head b) l)
    (addr size : Nat) : EndsWith (fun fuel => busHandleIo fuel s b addr size)
      (reached s addr size (l.find? fun r => (s.region r).covers addr)) :=
  (find_ends hl addr).map (reached s addr size)

theorem Listing.handle (h : Listing s lists) (b : β) (addr size : Nat) :
    EndsWith (fun fuel => busHandleIo fuel s b addr size)
      (reached s addr size ((lists b).find? fun r => (s.region r).covers addr)) :=
  handle_ends (h.linked b) addr size

/-- A walk that ends at a region ends at one that covers the address, inside
    every set of regions it starts in that the links do not lead out of. -/
theorem findFrom_found {P : ρ → Prop} {p : Option ρ} {addr fuel : Nat} {r : ρ}
    (hp : ∀ q, p = some q → P q) (hnext : ∀ q q', P q → s.nextOf q = some q' → P q')
    (h : iobusFindFrom s addr fuel p = some (some r)) :
    (s.region r).covers addr = true ∧ P r := by
  induction fuel generalizing p with
  | zero => exact absurd h (by simp only [iobusFindFrom, reduceCtorEq, not_false_eq_true])
  | succ fuel ih =>
      cases p with
      | none => simp only [iobusFindFrom, Option.some.injEq, reduceCtorEq] at h
      | some q =>
          rw [iobusFindFrom] at h
          by_cases hq : (s.region q).covers addr = true
          · rw [if_pos hq] at h
            rw [← Option.some.inj (Option.some.inj h)]
            exact ⟨hq, hp q rfl⟩
          · rw [if_neg hq] at h
            exact ih (fun q' hq' => hnext q q' (hp q rfl) hq') h

/-- An access is only ever given to a region that covers its address, with the
    distance from its start, and ends inside it. -/
theorem handleIo_inv {b : β} {addr size fuel : Nat} {r : ρ} {o : Nat}
    (h : busHandleIo fuel s b addr size = some (some (r, o))) :
    (s.region r).covers addr = true ∧
      (addr + size + (2 ^ 64 - 1)) % 2 ^ 64 ≤ (s.region r).last ∧
      o = addr - (s.region r).base := by
  rcases Option.map_eq_some_iff.mp h with ⟨q, hq, hres⟩
  rcases reached_inv hres with ⟨rfl, hend, ho⟩
  have hcovers := findFrom_found (P := fun _ => True) (fun _ _ => trivial)
    (fun _ _ _ _ => trivial) hq
  exact ⟨hcovers.1, hend, ho⟩

/-- An access is only ever given to a region on the bus that starts at or below
    its address, with the distance from there. -/
theorem Listing.handled_inv (h : Listing s lists) {b : β} {addr size fuel : Nat} {r : ρ} {o : Nat}
    (hr : busHandleIo fuel s b addr size = some (some (r, o))) :
    r ∈ lists b ∧ (s.region r).base ≤ addr ∧ o = addr - (s.region r).base := by
  have hreached := (h.handle b addr size).2 fuel _ hr
  rcases reached_inv hreached.symm with ⟨hfind, -, ho⟩
  have hcovers := List.find?_some (p := fun r => (s.region r).covers addr) hfind
  simp only [Region.covers, Bool.and_eq_true, decide_eq_true_eq] at hcovers
  exact ⟨List.mem_of_find?_eq_some hfind, hcovers.1, ho⟩

/-- An access that ends inside the one region covering it is given to that
    region. -/
theorem Listing.handled (h : Listing s lists) {b : β} {r : ρ} (hr : r ∈ lists b) (addr size : Nat)
    (hsize : 1 ≤ size) (hlo : (s.region r).base ≤ addr)
    (hhi : addr + size ≤ (s.region r).base + (s.region r).len)
    (hfit : (s.region r).base + (s.region r).len ≤ 2 ^ 64)
    (honly : ∀ q ∈ lists b, (s.region q).covers addr = true → q = r) :
    ∃ fuel, busHandleIo fuel s b addr size = some (some (r, addr - (s.region r).base)) := by
  have hlast := (s.region r).last_eq (by omega) hfit
  have hcovers : (s.region r).covers addr = true :=
    ((s.region r).covers_iff (by omega) hfit addr).mpr (by omega)
  rcases hfind : (lists b).find? (fun r => (s.region r).covers addr) with _ | q
  · exact absurd hcovers (by simpa only [List.find?_eq_none] using List.find?_eq_none.mp hfind r hr)
  · have hqc := List.find?_some (p := fun r => (s.region r).covers addr) hfind
    have hq : q = r := honly q (List.mem_of_find?_eq_some hfind) hqc
    have hends := h.handle b addr size
    rw [hfind, hq, reached, if_pos (by omega)] at hends
    exact hends.exists_fuel

end Find

end Microv
