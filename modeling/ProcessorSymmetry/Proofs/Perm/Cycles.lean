import Mathlib.Data.List.Rotate
import ProcessorSymmetry.Perm.Cycles
import ProcessorSymmetry.Proofs.Checks
import ProcessorSymmetry.Proofs.Distinct
import ProcessorSymmetry.Proofs.Perm.Group
import ProcessorSymmetry.Sorting

/-!
# Cycle notation

A permutation goes round a list if it sends each entry to the next one and the
last entry to the first.  Walking from a point until the walk is back gives a list
that the permutation goes round, and a product of exchanges goes round any list of
distinct points.  Disjoint lists that a permutation goes round determine it if it
fixes all other points, and up to rotation and order they are its cycles.
-/

namespace ProcessorSymmetry
namespace Perm

variable {n : Nat} {p q : Perm n} {c d rest mid : List Nat} {cs : List (List Nat)} {x y z : Nat}

/-- Each entry is sent to the next one, and the last entry to the first. -/
structure GoesRound (p : Perm n) (c : List Nat) : Prop where
  nodup : c.Nodup
  map_eq : c.map p = c.rotate 1

theorem goesRound_cons_iff :
    p.GoesRound (x :: rest) ↔ (x :: rest).Nodup ∧ (x :: rest).map p = rest ++ [x] := by
  have hrotate : (x :: rest).rotate 1 = rest ++ [x] := by
    rw [List.rotate_cons_succ, List.rotate_zero]
  constructor
  · rintro ⟨hnodup, hmap⟩
    exact ⟨hnodup, hmap.trans hrotate⟩
  · rintro ⟨hnodup, hmap⟩
    exact ⟨hnodup, hmap.trans hrotate.symm⟩

namespace GoesRound

/-- It does not matter where one starts. -/
theorem rotate (h : p.GoesRound c) (k : Nat) : p.GoesRound (c.rotate k) where
  nodup := List.nodup_rotate.mpr h.nodup
  map_eq := by
    rw [List.map_rotate, h.map_eq, List.rotate_rotate, List.rotate_rotate, Nat.add_comm]

theorem exists_rotate_eq_cons (hx : x ∈ c) : ∃ k rest, c.rotate k = x :: rest := by
  obtain ⟨before, after, rfl⟩ := List.append_of_mem hx
  exact ⟨before.length, after ++ before, List.rotate_append_length_eq before (x :: after)⟩

theorem moved_iff (h : p.GoesRound c) (hx : x ∈ c) : p x ≠ x ↔ 2 ≤ c.length := by
  obtain ⟨k, rest, hk⟩ := exists_rotate_eq_cons hx
  have hround := h.rotate k
  rw [hk, goesRound_cons_iff, List.map_cons] at hround
  obtain ⟨hnodup, hmap⟩ := hround
  rw [← List.length_rotate c k, hk]
  cases rest with
  | nil =>
      obtain ⟨hfixed, -⟩ := List.cons.inj hmap
      simp [hfixed]
  | cons y rest =>
      obtain ⟨hnext, -⟩ := List.cons.inj hmap
      have hne : x ≠ y := by
        rintro rfl
        exact (List.nodup_cons.mp hnodup).1 List.mem_cons_self
      simp [hnext, hne.symm]

theorem lt (h : p.GoesRound c) (hlength : 2 ≤ c.length) (hx : x ∈ c) : x < n := by
  by_contra hout
  exact (h.moved_iff hx).mpr hlength (p.app_of_le (Nat.not_lt.mp hout))

end GoesRound

/-! ## Walking -/

/-- A walk that has come from `x` to `y` goes on until it is back at `x`.  It is back in
time, since there are no more than `n` points to meet. -/
theorem goesRound_walk {bound : Nat} (hpath : (x :: mid).map p = mid ++ [y])
    (hnodup : (x :: mid).Nodup) (hlt : ∀ z ∈ x :: mid, z < n) (hbound : n ≤ mid.length + bound) :
    p.GoesRound (x :: (mid ++ p.walk x bound y)) := by
  induction bound generalizing mid y with
  | zero =>
      have hle := length_le_of_nodup hnodup hlt
      rw [List.length_cons] at hle
      omega
  | succ bound ih =>
      rw [walk]
      split
      · rename_i hback
        rw [hback] at hpath
        rw [List.append_nil]
        exact goesRound_cons_iff.mpr ⟨hnodup, hpath⟩
      · rename_i hnew
        -- Another point cannot be met again, because it would have two preimages.
        have himages : (mid ++ [y]).Nodup := hpath ▸ hnodup.map fun _ _ h => p.app_injective h
        have hy : y < n := by
          have hmem : y ∈ (x :: mid).map p := hpath ▸ List.mem_append_right _ List.mem_cons_self
          obtain ⟨z, hz, rfl⟩ := List.mem_map.mp hmem
          exact p.app_lt (hlt z hz)
        have hpath' : (x :: (mid ++ [y])).map p = mid ++ [y] ++ [p y] := by
          rw [← List.cons_append, List.map_append, hpath, List.map_singleton]
        have hnodup' : (x :: (mid ++ [y])).Nodup := by
          rw [List.nodup_cons] at hnodup ⊢
          refine ⟨?_, himages⟩
          rw [List.mem_append, List.mem_singleton]
          rintro (hx | rfl)
          · exact hnodup.1 hx
          · exact hnew rfl
        have hlt' : ∀ z ∈ x :: (mid ++ [y]), z < n := by
          rw [← List.cons_append]
          intro z hz
          rcases List.mem_append.mp hz with hz | hz
          · exact hlt z hz
          · rwa [List.mem_singleton.mp hz]
        have hbound' : n ≤ (mid ++ [y]).length + bound := by
          rw [List.length_append, List.length_singleton]
          omega
        have hround := ih hpath' hnodup' hlt' hbound'
        rwa [List.append_assoc] at hround

/-- The walk from a point of the domain closes. -/
theorem goesRound_cycleOf (hx : x < n) : p.GoesRound (p.cycleOf x) := by
  have hpath : [x].map p = [] ++ [p x] := rfl
  exact goesRound_walk hpath (List.nodup_singleton x) (by simpa using hx) (by simp)

theorem walk_eq {bound : Nat} (hpath : y :: rest.map p = rest ++ [x]) (hx : x ∉ rest)
    (hbound : rest.length ≤ bound) : p.walk x bound y = rest := by
  induction rest generalizing y bound with
  | nil =>
      obtain rfl : y = x := (List.cons.inj hpath).1
      cases bound with
      | zero => rfl
      | succ bound => rw [walk, if_pos rfl]
  | cons z rest ih =>
      obtain ⟨rfl, hrest⟩ := List.cons.inj hpath
      obtain ⟨hne, hx⟩ := not_or.mp (mt List.mem_cons.mpr hx)
      cases bound with
      | zero => simp at hbound
      | succ bound =>
          rw [walk, if_neg (Ne.symm hne), ih hrest hx (Nat.le_of_succ_le_succ hbound)]

/-- What a permutation goes round is met on a walk from the first entry. -/
theorem GoesRound.cycleOf_eq (h : p.GoesRound (x :: rest)) (hlength : 2 ≤ (x :: rest).length) :
    p.cycleOf x = x :: rest := by
  obtain ⟨hnodup, hmap⟩ := goesRound_cons_iff.mp h
  have hle := length_le_of_nodup hnodup fun _ hz => h.lt hlength hz
  rw [cycleOf, walk_eq hmap (List.nodup_cons.mp hnodup).1 (Nat.le_of_succ_le hle)]

/-! ## The cycles of a permutation -/

theorem isLeast_iff {bound : Nat} :
    p.isLeast x bound y = true ↔ ∀ z ∈ p.walk x bound y, x ≤ z := by
  induction bound generalizing y with
  | zero => simp [isLeast, walk]
  | succ bound ih =>
      rw [isLeast, walk]
      split
      · rename_i hback
        simp [hback]
      · rename_i hnew
        simp [hnew, ih]

/-- The cycles are the lists of at least two points that the permutation goes round
from their least entry on. -/
theorem mem_cycles_iff :
    c ∈ p.cycles ↔ p.GoesRound c ∧ 2 ≤ c.length ∧ ∀ z ∈ c, c.headD 0 ≤ z := by
  constructor
  · intro hc
    obtain ⟨x, hx, rfl⟩ := List.mem_map.mp hc
    rw [List.mem_filter, isLeast_iff, movedPoints, List.mem_filter, List.mem_range] at hx
    obtain ⟨⟨hlt, hmoved⟩, hleast⟩ := hx
    have hround := p.goesRound_cycleOf hlt
    refine ⟨hround, (hround.moved_iff List.mem_cons_self).mp (by simpa using hmoved), ?_⟩
    exact List.forall_mem_cons.mpr ⟨Nat.le_refl x, hleast⟩
  · rintro ⟨hround, hlength, hleast⟩
    cases c with
    | nil => simp at hlength
    | cons x rest =>
        have hcycle := hround.cycleOf_eq hlength
        rw [← hcycle]
        apply List.mem_map_of_mem
        rw [List.mem_filter, isLeast_iff, movedPoints, List.mem_filter, List.mem_range]
        refine ⟨⟨hround.lt hlength List.mem_cons_self, ?_⟩, ?_⟩
        · simpa using (hround.moved_iff List.mem_cons_self).mpr hlength
        · obtain ⟨-, hwalk⟩ := List.cons.inj hcycle
          rw [hwalk]
          exact fun z hz => hleast z (List.mem_cons_of_mem x hz)

/-- The cycles are listed by their least points. -/
theorem pairwise_cycles (p : Perm n) :
    p.cycles.Pairwise fun c d => c.headD 0 < d.headD 0 := by
  rw [cycles, List.pairwise_map]
  exact (List.pairwise_lt_range.filter _).filter _

theorem headD_mem (hc : c ≠ []) : c.headD 0 ∈ c := by
  cases c with
  | nil => exact absurd rfl hc
  | cons x rest => exact List.mem_cons_self

theorem ne_nil_of_two_le (h : 2 ≤ c.length) : c ≠ [] := by
  rintro rfl
  simp at h

/-- Two cycles with a point in common are the same. -/
theorem eq_of_mem_cycles (hc : c ∈ p.cycles) (hd : d ∈ p.cycles) (hxc : x ∈ c) (hxd : x ∈ d) :
    c = d := by
  obtain ⟨hroundc, hlengthc, hleastc⟩ := mem_cycles_iff.mp hc
  obtain ⟨hroundd, hlengthd, hleastd⟩ := mem_cycles_iff.mp hd
  -- From the common point on, both are the walk from there.
  have hwalk : ∀ {e : List Nat}, p.GoesRound e → 2 ≤ e.length → x ∈ e →
      ∀ z, z ∈ e ↔ z ∈ p.cycleOf x := by
    intro e hround hlength hx z
    obtain ⟨k, rest, hk⟩ := GoesRound.exists_rotate_eq_cons hx
    have hstart := hround.rotate k
    rw [← List.length_rotate e k] at hlength
    rw [hk] at hstart hlength
    rw [hstart.cycleOf_eq hlength, ← hk, List.mem_rotate]
  have hmem : ∀ z, z ∈ c ↔ z ∈ d := fun z =>
    (hwalk hroundc hlengthc hxc z).trans (hwalk hroundd hlengthd hxd z).symm
  have hhead : c.headD 0 = d.headD 0 := Nat.le_antisymm
    (hleastc _ ((hmem _).mpr (headD_mem (ne_nil_of_two_le hlengthd))))
    (hleastd _ ((hmem _).mp (headD_mem (ne_nil_of_two_le hlengthc))))
  cases c with
  | nil => simp at hlengthc
  | cons a rest =>
      cases d with
      | nil => simp at hlengthd
      | cons b others =>
          obtain rfl : a = b := hhead
          exact (hroundc.cycleOf_eq hlengthc).symm.trans (hroundd.cycleOf_eq hlengthd)

theorem disjoint_cycles (p : Perm n) : p.cycles.Pairwise List.Disjoint := by
  refine p.pairwise_cycles.imp_of_mem ?_
  intro c d hc hd hlt x hxc hxd
  rw [eq_of_mem_cycles hc hd hxc hxd] at hlt
  exact Nat.lt_irrefl _ hlt

/-! ## Starting from the least entry -/

/-- The list rotated so that it starts with its least entry. -/
def leastFirst (c : List Nat) : List Nat :=
  c.rotate (c.idxOf (c.min?.getD 0))

theorem headD_leastFirst_le (hz : z ∈ c) : (leastFirst c).headD 0 ≤ z := by
  cases hmin : c.min? with
  | none =>
      rw [List.min?_eq_none_iff.mp hmin] at hz
      cases hz
  | some m =>
      obtain ⟨hm, hle⟩ := List.min?_eq_some_iff.mp hmin
      rw [leastFirst, hmin, Option.getD_some, List.headD_eq_head?_getD,
        List.head?_rotate (List.idxOf_lt_length_iff.mpr hm), List.getElem?_idxOf hm]
      exact hle z hz

theorem GoesRound.leastFirst_mem_cycles (h : p.GoesRound c) (hlength : 2 ≤ c.length) :
    leastFirst c ∈ p.cycles := by
  rw [mem_cycles_iff]
  refine ⟨h.rotate _, ?_, fun z hz => headD_leastFirst_le (List.mem_rotate.mp hz)⟩
  rwa [leastFirst, List.length_rotate]

/-- The cycles contain exactly the points that are moved. -/
theorem exists_mem_cycles_iff : (∃ c ∈ p.cycles, x ∈ c) ↔ p x ≠ x := by
  constructor
  · rintro ⟨c, hc, hx⟩
    obtain ⟨hround, hlength, -⟩ := mem_cycles_iff.mp hc
    exact (hround.moved_iff hx).mpr hlength
  · intro hmoved
    have hx : x < n := Nat.lt_of_not_le fun hle => hmoved (p.app_of_le hle)
    have hround := p.goesRound_cycleOf hx
    have hlength := (hround.moved_iff List.mem_cons_self).mp hmoved
    exact ⟨_, hround.leastFirst_mem_cycles hlength, List.mem_rotate.mpr List.mem_cons_self⟩

/-! ## Permutations from cycles -/

/-- The permutation goes round each of the disjoint lists and fixes all other points. -/
structure GoesRoundAll (p : Perm n) (cs : List (List Nat)) : Prop where
  disjoint : cs.Pairwise List.Disjoint
  goesRound : ∀ c ∈ cs, p.GoesRound c
  fixed : ∀ x, (∀ c ∈ cs, x ∉ c) → p x = x

theorem goesRoundAll_cycles (p : Perm n) : p.GoesRoundAll p.cycles where
  disjoint := p.disjoint_cycles
  goesRound := fun _ hc => (mem_cycles_iff.mp hc).1
  fixed := by
    intro x hx
    by_contra hmoved
    obtain ⟨c, hc, hxc⟩ := exists_mem_cycles_iff.mpr hmoved
    exact hx c hc hxc

theorem GoesRoundAll.unique (hp : p.GoesRoundAll cs) (hq : q.GoesRoundAll cs) : p = q := by
  apply ext
  intro x _
  by_cases hx : ∃ c ∈ cs, x ∈ c
  · obtain ⟨c, hc, hxc⟩ := hx
    have hmap := (hp.goesRound c hc).map_eq.trans (hq.goesRound c hc).map_eq.symm
    exact List.map_inj_left.mp hmap x hxc
  · have hout : ∀ c ∈ cs, x ∉ c := fun c hc hxc => hx ⟨c, hc, hxc⟩
    rw [hp.fixed x hout, hq.fixed x hout]

theorem thenCycle_concat (p : Perm n) (x : Nat) (rest : List Nat) (y : Nat) :
    p.thenCycle (x :: rest ++ [y]) = p.thenCycle (x :: rest) * swap n x y := by
  rw [List.cons_append, thenCycle, List.foldl_append, ← swapAfter_eq]
  rfl

/-- A round gets one point longer if its last point is exchanged with a fixed one, which
then comes before the way back. -/
theorem GoesRound.concat (h : p.GoesRound (x :: rest)) (hx : x < n) (hy : y < n)
    (hnew : y ∉ x :: rest) (hfixed : p y = y) :
    (p * swap n x y).GoesRound (x :: rest ++ [y]) := by
  obtain ⟨hnodup, hmap⟩ := goesRound_cons_iff.mp h
  obtain ⟨hxrest, -⟩ := List.nodup_cons.mp hnodup
  obtain ⟨hyx, hyrest⟩ := not_or.mp (mt List.mem_cons.mpr hnew)
  have hkeep : rest.map (swap n x y) = rest := by
    have hid : ∀ z ∈ rest, swap n x y z = id z := by
      intro z hz
      have hzx : z ≠ x := fun heq => hxrest (heq ▸ hz)
      have hzy : z ≠ y := fun heq => hyrest (heq ▸ hz)
      rw [swap_app hx hy, if_neg hzx, if_neg hzy, id]
    rw [List.map_congr_left hid, List.map_id]
  have hlonger : (x :: rest ++ [y]).Nodup := by
    rw [← List.concat_eq_append]
    exact hnodup.concat hnew
  refine goesRound_cons_iff.mpr ⟨hlonger, ?_⟩
  calc
    (x :: rest ++ [y]).map (p * swap n x y) = ((x :: rest ++ [y]).map p).map (swap n x y) := by
      rw [List.map_map]
      exact List.map_congr_left fun z _ => mul_app _ _ z
    _ = (rest ++ [x] ++ [y]).map (swap n x y) := by
      rw [List.map_append, hmap, List.map_singleton, hfixed]
    _ = rest ++ [y] ++ [x] := by
      rw [List.map_append, List.map_append, hkeep, List.map_singleton, List.map_singleton,
        swap_app hx hy, swap_app hx hy, if_pos rfl, if_neg hyx, if_pos rfl]

/-- Followed by a cycle of points that it fixes, a permutation goes round the cycle and
sends all other points where it did before. -/
theorem thenCycle_spec (hnodup : c.Nodup) (hlt : ∀ z ∈ c, z < n) (hfixed : ∀ z ∈ c, p z = z) :
    (p.thenCycle c).GoesRound c ∧ ∀ z ∉ c, p.thenCycle c z = p z := by
  cases c with
  | nil => exact ⟨⟨.nil, rfl⟩, fun _ _ => rfl⟩
  | cons x rest =>
      -- The cycle grows at its end, by one exchange for each further point.
      induction rest using List.reverseRecOn with
      | nil =>
          refine ⟨goesRound_cons_iff.mpr ⟨hnodup, ?_⟩, fun _ _ => rfl⟩
          exact congrArg (· :: []) (hfixed x List.mem_cons_self)
      | append_singleton rest y ih =>
          rw [← List.cons_append] at hnodup hlt hfixed ⊢
          obtain ⟨hstart, -, hdisjoint⟩ := List.nodup_append.mp hnodup
          obtain ⟨hround, hother⟩ := ih hstart (fun z hz => hlt z (List.mem_append_left _ hz))
            fun z hz => hfixed z (List.mem_append_left _ hz)
          have hx : x ∈ x :: rest ++ [y] := List.mem_append_left _ List.mem_cons_self
          have hy : y ∈ x :: rest ++ [y] := List.mem_append_right _ List.mem_cons_self
          have hnew : y ∉ x :: rest := fun hmem => hdisjoint y hmem y List.mem_cons_self rfl
          rw [thenCycle_concat]
          constructor
          · exact hround.concat (hlt x hx) (hlt y hy) hnew ((hother y hnew).trans (hfixed y hy))
          · intro z hz
            have hne : ∀ w ∈ x :: rest ++ [y], p z ≠ w := by
              intro w hw heq
              rw [← hfixed w hw] at heq
              exact hz (p.app_injective heq ▸ hw)
            rw [mul_app, hother z fun hmem => hz (List.mem_append_left _ hmem),
              swap_app (hlt x hx) (hlt y hy), if_neg (hne x hx), if_neg (hne y hy)]

theorem GoesRoundAll.thenCycle (h : p.GoesRoundAll cs) (hnodup : c.Nodup)
    (hlt : ∀ z ∈ c, z < n) (hdisjoint : ∀ d ∈ cs, d.Disjoint c) :
    (p.thenCycle c).GoesRoundAll (cs ++ [c]) := by
  obtain ⟨hround, hother⟩ := thenCycle_spec hnodup hlt fun z hz =>
    h.fixed z fun d hd hzd => hdisjoint d hd hzd hz
  refine ⟨?_, ?_, ?_⟩
  · rw [List.pairwise_append]
    refine ⟨h.disjoint, List.pairwise_singleton _ _, ?_⟩
    intro d hd e he
    rw [List.mem_singleton.mp he]
    exact hdisjoint d hd
  · intro d hd
    rcases List.mem_append.mp hd with hd | hd
    · refine ⟨(h.goesRound d hd).nodup, ?_⟩
      rw [← (h.goesRound d hd).map_eq]
      exact List.map_congr_left fun z hz => hother z (hdisjoint d hd hz)
    · rwa [List.mem_singleton.mp hd]
  · intro x hx
    rw [hother x (hx c (List.mem_append_right _ List.mem_cons_self))]
    exact h.fixed x fun d hd => hx d (List.mem_append_left _ hd)

/-- The product of disjoint cycles goes round each of them. -/
theorem goesRoundAll_foldl (hcycles : ∀ c ∈ cs, c.Nodup ∧ ∀ x ∈ c, x < n)
    (hdisjoint : cs.Pairwise List.Disjoint) :
    (cs.foldl thenCycle (1 : Perm n)).GoesRoundAll cs := by
  induction cs using List.reverseRecOn with
  | nil => exact ⟨.nil, by simp, fun x _ => one_app x⟩
  | append_singleton cs c ih =>
      obtain ⟨hcs, -, hlast⟩ := List.pairwise_append.mp hdisjoint
      obtain ⟨hnodup, hlt⟩ := hcycles c (List.mem_append_right _ List.mem_cons_self)
      have hbefore := ih (fun d hd => hcycles d (List.mem_append_left _ hd)) hcs
      rw [List.foldl_append]
      exact hbefore.thenCycle hnodup hlt fun d hd => hlast d hd c List.mem_cons_self

theorem checkCycle_eq_ok (hnodup : c.Nodup) (hlt : ∀ x ∈ c, x < n) :
    checkCycle n c = .ok () := by
  have hsize : (Std.TreeSet.ofList c).size = c.length := by
    apply Std.TreeSet.size_ofList
    exact hnodup.imp fun hne heq => hne (Std.LawfulEqCmp.eq_of_compare heq)
  rw [checkCycle, checkPoints_eq_ok_iff.mpr hlt, hsize]
  exact if_pos rfl

/-- Cycles of distinct points of the domain are accepted. -/
theorem ofCycles_eq_ok (hcycles : ∀ c ∈ cs, c.Nodup ∧ ∀ x ∈ c, x < n) :
    ofCycles n cs = .ok (cs.foldl thenCycle 1) := by
  rw [ofCycles]
  generalize (1 : Perm n) = p
  induction cs generalizing p with
  | nil => rfl
  | cons c cs ih =>
      obtain ⟨⟨hnodup, hlt⟩, hcs⟩ := List.forall_mem_cons.mp hcycles
      rw [List.foldlM_cons, checkCycle_eq_ok hnodup hlt]
      exact ih hcs (p.thenCycle c)

/-! ## Written cycles and cycles read -/

/-- The cycles of at least two points, each from its least point on, in the order of
these points. -/
def inOrder (cs : List (List Nat)) : List (List Nat) :=
  sortBy (compareOn fun c => c.headD 0) ((cs.filter fun c => 2 ≤ c.length).map leastFirst)

theorem mem_inOrder : c ∈ inOrder cs ↔ ∃ d ∈ cs, 2 ≤ d.length ∧ leastFirst d = c := by
  rw [inOrder, (sortBy_perm _ _).mem_iff, List.mem_map]
  simp only [List.mem_filter, decide_eq_true_eq, and_assoc]

theorem nodup_inOrder (hdisjoint : cs.Pairwise List.Disjoint) : (inOrder cs).Nodup := by
  rw [inOrder, (sortBy_perm _ _).nodup_iff, List.Nodup, List.pairwise_map]
  refine (hdisjoint.filter _).imp_of_mem ?_
  intro c d hc _ hcd heq
  have hlength : 2 ≤ c.length := by simpa using (List.mem_filter.mp hc).2
  have hx := headD_mem (ne_nil_of_two_le hlength)
  have hmem : c.headD 0 ∈ leastFirst d := heq ▸ List.mem_rotate.mpr hx
  exact hcd hx (List.mem_rotate.mp hmem)

/-- Up to rotation and order there is only one way to write a permutation as a product
of disjoint cycles of at least two points. -/
theorem GoesRoundAll.cycles_eq (h : p.GoesRoundAll cs) : p.cycles = inOrder cs := by
  have hsub : ∀ c ∈ inOrder cs, c ∈ p.cycles := by
    intro c hc
    obtain ⟨d, hd, hlength, rfl⟩ := mem_inOrder.mp hc
    exact (h.goesRound d hd).leastFirst_mem_cycles hlength
  have hmem : ∀ c, c ∈ p.cycles ↔ c ∈ inOrder cs := by
    refine fun c => ⟨fun hc => ?_, hsub c⟩
    obtain ⟨-, hlength, -⟩ := mem_cycles_iff.mp hc
    have hx := headD_mem (ne_nil_of_two_le hlength)
    have hmoved := exists_mem_cycles_iff.mp ⟨c, hc, hx⟩
    obtain ⟨d, hd, hxd⟩ : ∃ d ∈ cs, c.headD 0 ∈ d := by
      by_contra hnone
      exact hmoved (h.fixed _ fun d hd hxd => hnone ⟨d, hd, hxd⟩)
    have hlengthd := ((h.goesRound d hd).moved_iff hxd).mp hmoved
    have hin : leastFirst d ∈ inOrder cs := mem_inOrder.mpr ⟨d, hd, hlengthd, rfl⟩
    rwa [eq_of_mem_cycles hc (hsub _ hin) hx (List.mem_rotate.mpr hxd)]
  have hnodup : p.cycles.Nodup := by
    refine p.pairwise_cycles.imp ?_
    rintro c _ hlt rfl
    exact Nat.lt_irrefl _ hlt
  have hperm := (List.perm_ext_iff_of_nodup hnodup (nodup_inOrder h.disjoint)).mpr hmem
  refine hperm.eq_of_pairwise ?_ (p.pairwise_cycles.imp ?_) (sortBy_pairwise _ _)
  · intro c d hc hd hcd hdc
    have hheads : c.headD 0 = d.headD 0 := eq_of_isLE hcd hdc
    obtain ⟨-, hlengthc, -⟩ := mem_cycles_iff.mp hc
    obtain ⟨-, hlengthd, -⟩ := mem_cycles_iff.mp (hsub d hd)
    have hxd := headD_mem (ne_nil_of_two_le hlengthd)
    exact eq_of_mem_cycles hc (hsub d hd) (headD_mem (ne_nil_of_two_le hlengthc))
      (hheads ▸ hxd)
  · intro c d hlt
    exact Nat.isLE_compare.mpr (Nat.le_of_lt hlt)

/-- The cycles of a permutation are disjoint lists of at least two points.  The
permutation goes round each of them, they contain exactly the points that it moves,
each starts with its least point, they are in the order of these points, and their
product is the permutation.  Conversely, disjoint lists of distinct points are accepted
as cycles, and the permutation that they make has them as its cycles, up to those with
one point or none, rotated to their least points and put in order. -/
theorem ofCycles_cycles_and_cycles_ofCycles (n : Nat) :
    (∀ p : Perm n,
      (∀ c ∈ p.cycles, 2 ≤ c.length ∧ c.Nodup ∧ c.map p = c.rotate 1 ∧
        ∀ x ∈ c, c.headD 0 ≤ x) ∧
      p.cycles.Pairwise List.Disjoint ∧
      (∀ x, (∃ c ∈ p.cycles, x ∈ c) ↔ p x ≠ x) ∧
      p.cycles.Pairwise (fun c d => c.headD 0 < d.headD 0) ∧
      ofCycles n p.cycles = .ok p) ∧
    ∀ cs : List (List Nat), (∀ c ∈ cs, c.Nodup ∧ ∀ x ∈ c, x < n) →
      cs.Pairwise List.Disjoint →
      ∃ p, ofCycles n cs = .ok p ∧ p.cycles = inOrder cs := by
  constructor
  · intro p
    refine ⟨?_, p.disjoint_cycles, fun x => exists_mem_cycles_iff, p.pairwise_cycles, ?_⟩
    · intro c hc
      obtain ⟨hround, hlength, hleast⟩ := mem_cycles_iff.mp hc
      exact ⟨hlength, hround.nodup, hround.map_eq, hleast⟩
    · have hcycles : ∀ c ∈ p.cycles, c.Nodup ∧ ∀ x ∈ c, x < n := by
        intro c hc
        obtain ⟨hround, hlength, -⟩ := mem_cycles_iff.mp hc
        exact ⟨hround.nodup, fun x hx => hround.lt hlength hx⟩
      have hproduct := goesRoundAll_foldl hcycles p.disjoint_cycles
      rw [ofCycles_eq_ok hcycles, hproduct.unique p.goesRoundAll_cycles]
  · intro cs hcycles hdisjoint
    exact ⟨_, ofCycles_eq_ok hcycles, (goesRoundAll_foldl hcycles hdisjoint).cycles_eq⟩

/-- Two cycles that start elsewhere and come in the other order, with an empty one and
one of a single point between them. -/
theorem ofCycles_cycles_and_cycles_ofCycles_rotated :
    (∀ c ∈ [[5, 1], [], [3], [4, 0, 2]], c.Nodup ∧ ∀ x ∈ c, x < 6) ∧
      [[5, 1], [], [3], [4, 0, 2]].Pairwise List.Disjoint ∧
      ∃ p, ofCycles 6 [[5, 1], [], [3], [4, 0, 2]] = .ok p ∧
        p.cycles = [[0, 2, 4], [1, 5]] ∧ ofCycles 6 [[0, 2, 4], [1, 5]] = .ok p := by
  have hcycles : ∀ c ∈ [[5, 1], [], [3], [4, 0, 2]], c.Nodup ∧ ∀ x ∈ c, x < 6 := by decide
  have hdisjoint : [[5, 1], [], [3], [4, 0, 2]].Pairwise List.Disjoint :=
    (List.nodup_flatten.mp (by decide)).2
  obtain ⟨hread, hwritten⟩ := ofCycles_cycles_and_cycles_ofCycles 6
  obtain ⟨p, hp, hlist⟩ := hwritten _ hcycles hdisjoint
  have hsorted : p.cycles = [[0, 2, 4], [1, 5]] := hlist.trans (by cbv)
  obtain ⟨-, -, -, -, hback⟩ := hread p
  rw [hsorted] at hback
  exact ⟨hcycles, hdisjoint, p, hp, hsorted, hback⟩

end Perm
end ProcessorSymmetry
