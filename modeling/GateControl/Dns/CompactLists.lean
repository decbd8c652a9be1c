import GateControl.Dns.ListSize
import GateControl.Dns.Patterns

/-!
# CompactLists — lists of hashes are exact

A builder sorts its hashes in its own buffer and drops the repeats there, writing over what it has
already read (`finishInPlace`); what it returns is sorted and holds the hashes that were added, no
others (`mem_finish_iff`, `sorted_finish`).  The search in such an array finds exactly its elements
(`hasHash_iff`), so a list blocks a name as its three sets of hashes say (`lists_exact`).
-/

namespace GateControl
namespace Dns

open Library

/-! ## Finishing in the buffer -/

namespace HashBuilder

/-- The loop over the sorted part of the buffer: it reads at `r` and writes at `w`. -/
def compactLoop : Nat → List Nat → Nat → Nat → List Nat × Nat
  | 0, a, _, w => (a, w)
  | rounds + 1, a, r, w =>
      -- the element before `r` may have been written meanwhile, with its own value only
      if r = 0 ∨ a[r]? ≠ a[r - 1]? then compactLoop rounds (a.set w (a.getD r 0)) (r + 1) (w + 1)
      else compactLoop rounds a (r + 1) w

/-- What `finish` returns, and whether it is a part of the buffer itself. -/
structure Finished where
  kept : Bool
  values : List Nat
  deriving DecidableEq

/-- `finish` as it works on the buffer; a buffer that is nearly full is kept, not copied. -/
def finishInPlace (b : HashBuilder) : Finished :=
  let a := (b.buf.take b.n).mergeSort (· ≤ ·)
  let r := compactLoop a.length a 0 0
  let buf := r.1 ++ b.buf.drop b.n
  if r.2 ≥ buf.length - buf.length / 8 then ⟨true, buf.take r.2⟩ else ⟨false, r.1.take r.2⟩

/-- The builder after some hashes. -/
def build (initial : Nat) (hashes : List Nat) : HashBuilder := hashes.foldl addHash (new initial)

/-- The element before a position. -/
def before (l : List Nat) : Nat → Option Nat
  | 0 => none
  | r + 1 => l[r]?

/-- What the loop has written stays, and the rest follows without repeats. -/
theorem take_compactLoop (l : List Nat) {rounds r w : Nat} {a : List Nat} (hw : w ≤ r)
    (hlength : a.length = l.length) (hrounds : r + rounds = l.length)
    (hread : ∀ i, r ≤ i + 1 → a[i]? = l[i]?) :
    (compactLoop rounds a r w).1.take (compactLoop rounds a r w).2 =
        a.take w ++ dropRepeats (before l r) (l.drop r) ∧
      (compactLoop rounds a r w).1.length = l.length ∧
      (compactLoop rounds a r w).2 ≤ l.length := by
  induction rounds generalizing a r w with
  | zero =>
      rw [compactLoop, List.drop_eq_nil_of_le (by omega), dropRepeats, List.append_nil]
      exact ⟨rfl, hlength, by omega⟩
  | succ rounds ih =>
      have hr : r < l.length := by omega
      -- writing is never ahead of reading, so what is read is still the element of the list
      have hx : a[r]? = some l[r] := by
        rw [hread r (Nat.le_succ r), List.getElem?_eq_getElem hr]
      have hprev : r = 0 ∨ a[r]? ≠ a[r - 1]? ↔ before l r ≠ some l[r] := by
        cases r with
        | zero =>
            simp [before]
        | succ r =>
            rw [hx, Nat.add_sub_cancel, hread r (Nat.le_refl _), before, ne_comm]
            simp
      rw [List.drop_eq_getElem_cons hr, dropRepeats, compactLoop]
      by_cases hnew : before l r = some l[r]
      · -- the same as the one before it
        rw [if_neg (by rw [hprev]; exact not_not.2 hnew), if_pos hnew]
        have hnext : before l (r + 1) = some l[r] := List.getElem?_eq_getElem hr
        rw [← hnext]
        exact ih (by omega) hlength (by omega) fun i hi => hread i (by omega)
      · -- another one: it is written behind those that stay
        rw [if_pos (hprev.2 hnew), if_neg hnew]
        have hget : a.getD r 0 = l[r] := by
          rw [List.getD_eq_getElem?_getD, hx, Option.getD_some]
        have hset : (a.set w l[r]).take (w + 1) = a.take w ++ [l[r]] := by
          have hlt : w < a.length := by omega
          rw [List.take_succ_eq_append_getElem (by rw [List.length_set]; exact hlt),
            List.getElem_set_self, List.take_set_of_le (Nat.le_refl w)]
        have hread' : ∀ i, r + 1 ≤ i + 1 → (a.set w l[r])[i]? = l[i]? := by
          intro i hi
          by_cases hiw : w = i
          · -- the position that is read is written, with the element that is there
            obtain rfl : i = r := by omega
            rw [hiw, List.getElem?_set_self (by omega), List.getElem?_eq_getElem hr]
          · rw [List.getElem?_set_ne hiw]
            exact hread i (by omega)
        have hnext : before l (r + 1) = some l[r] := List.getElem?_eq_getElem hr
        obtain ⟨htake, hlengths⟩ := ih (a := a.set w l[r]) (w := w + 1) (by omega)
          (by rw [List.length_set]; exact hlength) (by omega) hread'
        rw [hget, htake, hset, hnext, List.append_assoc]
        exact ⟨rfl, hlengths⟩

/-- Dropping the repeats in place or not, from the buffer or from a copy, gives the same. -/
theorem finishInPlace_values (b : HashBuilder) : b.finishInPlace.values = b.finish := by
  obtain ⟨htake, hlength, hle⟩ := take_compactLoop ((b.buf.take b.n).mergeSort (· ≤ ·))
    (Nat.le_refl 0) rfl (Nat.zero_add _) fun _ _ => rfl
  rw [List.take_zero, List.nil_append, List.drop_zero] at htake
  rw [finishInPlace, finish]
  split
  · dsimp only
    rw [List.take_append_of_le_length (hlength.symm ▸ hle)]
    exact htake
  · exact htake

/-! ## What is kept -/

theorem mem_dropRepeats {prev : Option Nat} {as : List Nat} {v : Nat} :
    (v ∈ dropRepeats prev as → v ∈ as) ∧ (v ∈ as → prev ≠ some v → v ∈ dropRepeats prev as) := by
  induction as generalizing prev with
  | nil =>
      exact ⟨id, fun h _ => h⟩
  | cons a as ih =>
      rw [dropRepeats]
      split
      · rename_i hprev
        refine ⟨fun h => List.mem_cons_of_mem _ (ih.1 h), fun h hne => ?_⟩
        rcases List.mem_cons.1 h with rfl | h
        · exact absurd hprev hne
        · exact ih.2 h (hprev ▸ hne)
      · refine ⟨fun h => ?_, fun h _ => ?_⟩
        · exact (List.mem_cons.1 h).elim (fun heq => heq ▸ List.mem_cons_self)
            fun h => List.mem_cons_of_mem _ (ih.1 h)
        · by_cases hv : v = a
          · exact hv ▸ List.mem_cons_self
          · have hmem : v ∈ as := (List.mem_cons.1 h).resolve_left hv
            exact List.mem_cons_of_mem _ (ih.2 hmem fun heq => hv (Option.some.inj heq).symm)

/-- Of a sorted list, a strictly sorted one is left. -/
theorem sorted_dropRepeats {prev : Option Nat} {as : List Nat} (hsorted : as.Pairwise (· ≤ ·))
    (hprev : ∀ p ∈ prev, ∀ a ∈ as, p ≤ a) :
    (dropRepeats prev as).Pairwise (· < ·) ∧ ∀ p ∈ prev, ∀ a ∈ dropRepeats prev as, p < a := by
  induction as generalizing prev with
  | nil =>
      exact ⟨.nil, fun _ _ a ha => by cases ha⟩
  | cons a as ih =>
      obtain ⟨hle, hrest⟩ := List.pairwise_cons.1 hsorted
      have hnext : ∀ p ∈ some a, ∀ x ∈ as, p ≤ x := by
        intro p hp x hx
        exact Option.some.inj hp ▸ hle x hx
      obtain ⟨hstrict, hlt⟩ := ih hrest hnext
      rw [dropRepeats]
      split
      · rename_i heq
        exact ⟨hstrict, heq ▸ hlt⟩
      · rename_i hne
        refine ⟨List.pairwise_cons.2 ⟨hlt a rfl, hstrict⟩, ?_⟩
        intro p hp x hx
        have hpa : p < a := by
          refine lt_of_le_of_ne (hprev p hp a List.mem_cons_self) ?_
          rintro rfl
          exact hne hp
        rcases List.mem_cons.1 hx with rfl | hx
        · exact hpa
        · exact hpa.trans (hlt a rfl x hx)

theorem build_holds {initial : Nat} (h : 1 ≤ initial) (hashes : List Nat) :
    (build initial hashes).Holds hashes := by
  have hgo : ∀ (b : HashBuilder) (hs : List Nat), b.Holds hs →
      (hashes.foldl HashBuilder.addHash b).Holds (hs ++ hashes) := by
    induction hashes with
    | nil =>
        intro b hs hb
        rw [List.append_nil]
        exact hb
    | cons x xs ih =>
        intro b hs hb
        rw [List.append_cons]
        exact ih _ _ (hb.addHash x)
  exact hgo _ [] (new_holds h)

theorem sorted_finish (b : HashBuilder) : b.finish.Pairwise (· < ·) := by
  have hsorted : ((b.buf.take b.n).mergeSort (· ≤ ·)).Pairwise (· ≤ ·) :=
    List.pairwise_mergeSort' (· ≤ ·) _
  exact (sorted_dropRepeats hsorted fun p hp => by cases hp).1

theorem Holds.mem_finish_iff {b : HashBuilder} {hashes : List Nat} (hb : b.Holds hashes) {v : Nat} :
    v ∈ b.finish ↔ v ∈ hashes := by
  have hmem : v ∈ (b.buf.take b.n).mergeSort (· ≤ ·) ↔ v ∈ hashes := by
    rw [hb.used]
    exact (List.mergeSort_perm hashes _).mem_iff
  rw [← hmem]
  exact ⟨fun h => mem_dropRepeats.1 h, fun h => mem_dropRepeats.2 h (Option.some_ne_none v).symm⟩

end HashBuilder

/-! ## The search -/

section Search

variable {a : List Nat} {v : Nat}

/-- The search ends at a place with only smaller elements before it and none behind it. -/
theorem lowerBoundLoop_spec (hsorted : a.Pairwise (· < ·)) {rounds lo hi : Nat}
    (hrounds : hi ≤ lo + rounds) (hlohi : lo ≤ hi) (hhi : hi ≤ a.length)
    (hbelow : ∀ i x, i < lo → a[i]? = some x → x < v)
    (habove : ∀ i x, hi ≤ i → a[i]? = some x → v ≤ x) :
    (∀ i x, i < lowerBoundLoop a v rounds lo hi → a[i]? = some x → x < v) ∧
      ∀ i x, lowerBoundLoop a v rounds lo hi ≤ i → a[i]? = some x → v ≤ x := by
  induction rounds generalizing lo hi with
  | zero =>
      obtain rfl : lo = hi := by omega
      exact ⟨hbelow, habove⟩
  | succ rounds ih =>
      rw [lowerBoundLoop]
      by_cases hlt : lo < hi
      · rw [if_pos hlt]
        -- the middle lies in the range, so there is an element
        have hmid : (lo + hi) / 2 < a.length := by omega
        have hget : a[(lo + hi) / 2]? = some a[(lo + hi) / 2] := List.getElem?_eq_getElem hmid
        have hgetD : a.getD ((lo + hi) / 2) 0 = a[(lo + hi) / 2] := by
          rw [List.getD_eq_getElem?_getD, hget, Option.getD_some]
        have hmono : ∀ i j x y : Nat, i < j → a[i]? = some x → a[j]? = some y → x < y := by
          intro i j x y hij hx hy
          obtain ⟨hi', rfl⟩ := List.getElem?_eq_some_iff.1 hx
          obtain ⟨hj', rfl⟩ := List.getElem?_eq_some_iff.1 hy
          exact List.pairwise_iff_getElem.1 hsorted i j hi' hj' hij
        simp only [hgetD]
        by_cases hless : a[(lo + hi) / 2] < v
        · rw [if_pos hless]
          refine ih (by omega) (by omega) hhi ?_ habove
          intro i x hi' hx
          rcases Nat.lt_or_eq_of_le (Nat.le_of_lt_succ hi') with hlt' | rfl
          · exact (hmono _ _ _ _ hlt' hx hget).trans hless
          · rw [hget] at hx
            exact Option.some.inj hx ▸ hless
        · rw [if_neg hless]
          refine ih (by omega) (by omega) (by omega) hbelow ?_
          intro i x hi' hx
          rcases Nat.lt_or_eq_of_le hi' with hlt' | rfl
          · exact (Nat.le_of_not_lt hless).trans (Nat.le_of_lt (hmono _ _ _ _ hlt' hget hx))
          · rw [hget] at hx
            exact Option.some.inj hx ▸ Nat.le_of_not_lt hless
      · rw [if_neg hlt]
        obtain rfl : lo = hi := by omega
        exact ⟨hbelow, habove⟩

theorem hasHash_eq (a : List Nat) (v : Nat) :
    hasHash a v = (decide (lowerBound a v < a.length) && a.getD (lowerBound a v) 0 == v) := rfl

/-- In a sorted array the search finds what is there. -/
theorem hasHash_iff (hsorted : a.Pairwise (· < ·)) : hasHash a v = true ↔ v ∈ a := by
  have hspec := lowerBoundLoop_spec (v := v) hsorted (Nat.le_of_eq (Nat.zero_add a.length).symm)
    (Nat.zero_le _) (Nat.le_refl _) (fun i _ hi => absurd hi (Nat.not_lt_zero i))
    (fun i x hi hx => absurd (List.getElem?_eq_some_iff.1 hx).1 (Nat.not_lt.2 hi))
  obtain ⟨hbelow, habove⟩ := hspec
  rw [hasHash_eq, Bool.and_eq_true, decide_eq_true_iff, beq_iff_eq]
  constructor
  · rintro ⟨hlt, heq⟩
    rw [List.getD_eq_getElem?_getD, List.getElem?_eq_getElem hlt, Option.getD_some] at heq
    exact heq ▸ List.getElem_mem hlt
  · intro hmem
    obtain ⟨i, hi, heq⟩ := List.getElem_of_mem hmem
    have hget : a[i]? = some v := heq ▸ List.getElem?_eq_getElem hi
    -- no place before the element is the end of the search, and none behind it
    have hki : lowerBound a v ≤ i := by
      by_contra hik
      exact Nat.lt_irrefl _ (hbelow i v (Nat.lt_of_not_le hik) hget)
    have hk : lowerBound a v < a.length := Nat.lt_of_le_of_lt hki hi
    have hik : lowerBound a v = i := by
      rcases Nat.lt_or_eq_of_le hki with hlt | heq'
      · have hge := habove _ _ (Nat.le_refl _) (List.getElem?_eq_getElem hk)
        have hlt' := List.pairwise_iff_getElem.1 hsorted _ i hk hi hlt
        change v ≤ a[lowerBound a v] at hge
        omega
      · exact heq'
    refine ⟨hk, ?_⟩
    rw [hik, List.getD_eq_getElem?_getD, hget, Option.getD_some]

end Search

/-! ## Lists -/

/-- The name itself, or what follows one of its dots. -/
def IsDotSuffix (d name : Text) : Prop := d = name ∨ ∃ pre, name = pre ++ '.' :: d

theorem mem_suffixes_iff {d name : Text} : d ∈ suffixes name ↔ IsDotSuffix d name := by
  rw [suffixes, List.mem_cons, mem_tails_iff, IsDotSuffix]
  constructor
  · rintro (h | ⟨pre, h⟩)
    · exact Or.inl h
    · exact Or.inr ⟨pre, h.symm⟩
  · rintro (h | ⟨pre, h⟩)
    · exact Or.inl h
    · exact Or.inr ⟨pre, h.symm⟩

theorem any_suffixes_iff {a : List Nat} (hsorted : a.Pairwise (· < ·)) (name : Text) :
    ((suffixes name).map hash53).any (hasHash a) = true ↔ ∃ d, IsDotSuffix d name ∧ hash53 d ∈ a := by
  rw [List.any_map, List.any_eq_true]
  constructor
  · rintro ⟨d, hd, hhas⟩
    exact ⟨d, mem_suffixes_iff.1 hd, (hasHash_iff hsorted).1 hhas⟩
  · rintro ⟨d, hd, hmem⟩
    exact ⟨d, mem_suffixes_iff.2 hd, (hasHash_iff hsorted).2 hmem⟩

/-- What a list of sorted arrays matches. -/
theorem CompactList.matchesName_iff {l : CompactList} (hsuffix : l.suffix.Pairwise (· < ·))
    (hexact : l.exact.Pairwise (· < ·)) (hexcept : l.except.Pairwise (· < ·)) (name : Text) :
    l.matchesName name = true ↔ (∀ d, IsDotSuffix d name → hash53 d ∉ l.except) ∧
      (hash53 name ∈ l.exact ∨ ∃ d, IsDotSuffix d name ∧ hash53 d ∈ l.suffix) := by
  have hhead : ((suffixes name).map hash53).head? = some (hash53 name) := rfl
  rw [matchesName, matchHashes, hhead, Option.any_some]
  split
  · rename_i hany
    obtain ⟨d, hd, hmem⟩ := (any_suffixes_iff hexcept name).1 hany
    simp only [Bool.false_eq_true, false_iff, not_and]
    exact fun hnone => absurd hmem (hnone d hd)
  · rename_i hany
    have hnone : ∀ d, IsDotSuffix d name → hash53 d ∉ l.except := by
      intro d hd hmem
      exact hany ((any_suffixes_iff hexcept name).2 ⟨d, hd, hmem⟩)
    split
    · rename_i hhas
      exact ⟨fun _ => ⟨hnone, Or.inl ((hasHash_iff hexact).1 hhas)⟩, fun _ => rfl⟩
    · rename_i hhas
      rw [any_suffixes_iff hsuffix]
      refine ⟨fun h => ⟨hnone, Or.inr h⟩, fun h => h.2.resolve_left ?_⟩
      exact fun hmem => hhas ((hasHash_iff hexact).2 hmem)

open HashBuilder in
/-- From any sequence of hashes a builder makes the strictly sorted array of them, kept or copied,
in which the search finds them and no others; and a list of three such arrays matches a name if and
only if no end piece of it is excepted, and the name or one of its end pieces is blocked. -/
theorem lists_exact {a b c : Nat} (ha : 1 ≤ a) (hb : 1 ≤ b) (hc : 1 ≤ c)
    (suffixed exact excepted : List Nat) (name : Text) :
    ((build a suffixed).finishInPlace.values.Pairwise (· < ·) ∧
      ∀ v, (v ∈ (build a suffixed).finishInPlace.values ↔ v ∈ suffixed) ∧
        (hasHash (build a suffixed).finishInPlace.values v = true ↔ v ∈ suffixed)) ∧
      ((CompactList.mk (build a suffixed).finishInPlace.values (build b exact).finishInPlace.values
          (build c excepted).finishInPlace.values).matchesName name = true ↔
        (∀ d, IsDotSuffix d name → hash53 d ∉ excepted) ∧
          (hash53 name ∈ exact ∨ ∃ d, IsDotSuffix d name ∧ hash53 d ∈ suffixed)) := by
  rw [finishInPlace_values, finishInPlace_values, finishInPlace_values]
  refine ⟨⟨sorted_finish _, fun v => ⟨(build_holds ha suffixed).mem_finish_iff, ?_⟩⟩, ?_⟩
  · rw [hasHash_iff (sorted_finish _), (build_holds ha suffixed).mem_finish_iff]
  · rw [CompactList.matchesName_iff (sorted_finish _) (sorted_finish _) (sorted_finish _)]
    simp only [(build_holds ha suffixed).mem_finish_iff, (build_holds hb exact).mem_finish_iff,
      (build_holds hc excepted).mem_finish_iff]

/-- A list that blocks `b.c` with an exception for `a.b.c`. -/
theorem lists_exact_example :
    (CompactList.mk (HashBuilder.build 1 [hash53 "b.c".toList]).finishInPlace.values
      (HashBuilder.build 1 []).finishInPlace.values
      (HashBuilder.build 1 [hash53 "a.b.c".toList]).finishInPlace.values).matchesName
        "x.b.c".toList = true := by
  refine (lists_exact (Nat.le_refl 1) (Nat.le_refl 1) (Nat.le_refl 1) _ _ _ _).2.2 ⟨?_, Or.inr ?_⟩
  · intro d hd hmem
    have hd' : ∀ d ∈ suffixes "x.b.c".toList, hash53 d ≠ hash53 "a.b.c".toList :=
      List.forall_iff_forall_mem.1 (by decide +kernel)
    exact hd' d (mem_suffixes_iff.2 hd) (List.mem_singleton.1 hmem)
  · exact ⟨"b.c".toList, Or.inr ⟨"x".toList, rfl⟩, List.mem_cons_self⟩

end Dns
end GateControl
