import GateControl.Dns.DistinctNames
import GateControl.Dns.Patterns

/-!
# FastCheck — the check of names in a list against the check of all other names

Names of a block list are checked and hashed byte by byte (`hashDomainBytes`), all other names are
cleaned as texts (`cleanDomain`).  Both keep the same rules for labels (`scanBytes_spec`), but the
first one wants a letter or an underscore where the second one only refuses what consists of digits
and dots.  So the two agree on everything but names of digits, dots and hyphens
(`hashDomainBytes_agrees_iff`).
-/

namespace GateControl
namespace Dns

open Library

/-! ## Labels -/

theorem labelOk_iff (l : Text) :
    labelOk l = true ↔ l ≠ [] ∧ (∀ c ∈ l.head?, isLabelEdge c = true) ∧
      (∀ c ∈ l, isLabelChar c = true) ∧ l.length ≤ 63 ∧ l.getLast? ≠ some '-' := by
  cases l with
  | nil =>
      simp [labelOk]
  | cons c rest =>
      have hedge : isLabelEdge c = true → isLabelChar c = true := fun h => by simp [isLabelChar, h]
      have hhyphen : isLabelEdge c = true → c ≠ '-' := by
        rintro h rfl
        revert h
        decide
      rcases List.eq_nil_or_concat rest with rfl | ⟨mid, last, rfl⟩
      · -- a label of one character
        simp only [labelOk, List.getLast?_nil, Bool.and_true, ne_eq, List.cons_ne_nil,
          not_false_eq_true, List.head?_cons, Option.mem_some_iff, forall_eq', List.mem_singleton,
          forall_eq, List.length_singleton, List.getLast?_singleton, Option.some.injEq, true_and]
        exact ⟨fun h => ⟨h, hedge h, by decide, hhyphen h⟩, fun h => h.1⟩
      · have hlast : isLabelEdge last = true ↔ isLabelChar last = true ∧ last ≠ '-' := by
          constructor
          · intro h
            refine ⟨by simp [isLabelChar, h], ?_⟩
            rintro rfl
            revert h
            decide
          · rintro ⟨h, hne⟩
            simpa [isLabelChar, hne] using h
        have hend : (mid ++ [last]).getLast? = some last := List.getLast?_concat
        have hend' : (c :: (mid ++ [last])).getLast? = some last := by
          rw [List.getLast?_cons, hend]
          rfl
        rw [List.concat_eq_append, labelOk, hend, hend', List.dropLast_concat]
        simp only [Bool.and_eq_true, decide_eq_true_eq, List.all_eq_true, hlast, ne_eq,
          List.cons_ne_nil, not_false_eq_true, List.head?_cons, Option.mem_some_iff, forall_eq',
          List.mem_cons, List.mem_append, List.length_cons, List.length_append, List.length_nil,
          true_and, Option.some.injEq, List.not_mem_nil, or_false]
        constructor
        · rintro ⟨hc, ⟨hlength, hmid⟩, hchar, hne⟩
          refine ⟨hc, ?_, by omega, hne⟩
          rintro x (rfl | hx | rfl)
          · exact hedge hc
          · exact hmid x hx
          · exact hchar
        · rintro ⟨hc, hchars, hlength, hne⟩
          exact ⟨hc, ⟨by omega, fun x hx => hchars x (Or.inr (Or.inl hx))⟩,
            hchars last (Or.inr (Or.inr rfl)), hne⟩

/-- The first label begins with what stands before the first dot. -/
theorem splitOn_append {p : Text} (hp : '.' ∉ p) (t : Text) :
    ∃ l ls, (p ++ t).splitOn '.' = l :: ls ∧ p <+: l := by
  by_cases ht : '.' ∈ t
  · obtain ⟨u, v, rfl, hu⟩ := List.eq_append_cons_of_mem ht
    refine ⟨p ++ u, v.splitOn '.', ?_, List.prefix_append _ _⟩
    rw [← List.append_assoc, List.splitOn_append_cons_self_of_not_mem]
    simp [hp, hu]
  · exact ⟨p ++ t, [], List.splitOn_eq_singleton (by simp [hp, ht]), List.prefix_append _ _⟩

/-- What a label begins with is not longer, and made of the same characters. -/
theorem labels_prefix {p t : Text} (hp : '.' ∉ p)
    (h : ((p ++ t).splitOn '.').all labelOk = true) :
    (∀ c ∈ p.head?, isLabelEdge c = true) ∧ (∀ c ∈ p, isLabelChar c = true) ∧ p.length ≤ 63 := by
  obtain ⟨l, ls, hsplit, rest, rfl⟩ := splitOn_append hp t
  rw [hsplit, List.all_cons, Bool.and_eq_true] at h
  obtain ⟨_, hhead, hchars, hlength, _⟩ := (labelOk_iff _).1 h.1
  refine ⟨fun c hc => ?_, fun c hc => hchars c (List.mem_append_left _ hc), ?_⟩
  · apply hhead
    rw [List.head?_append, Option.mem_def.1 hc]
    rfl
  · rw [List.length_append] at hlength
    omega

/-! ## Bytes and characters -/

/-- A capital letter becomes a small one. -/
def lowerByte (b : UInt8) : UInt8 := if 0x41 ≤ b && b ≤ 0x5a then b + 32 else b

/-- The character that a byte of ASCII is cleaned to. -/
def lowered (b : UInt8) : Char := asciiLower (Char.ofNat b.toNat)

/-- The tests of the scan on a byte are those of the labels on its character. -/
def readsAlike (b : UInt8) : Bool :=
  (lowerByte b == 0x2e) == (lowered b == '.') &&
    (isAlnum (lowerByte b) || lowerByte b == 0x5f) == isLabelEdge (lowered b) &&
    (lowerByte b == 0x2d) == (lowered b == '-') &&
    decide (lowerByte b > 0x39) == decide ('9' < lowered b) &&
    (lowerByte b).toUInt32 == (lowered b).val && isAscii (lowered b)

theorem readsAlike_of_ascii {b : UInt8} (h : b.toNat < 0x80) : readsAlike b = true := by
  have hall : ∀ n ∈ List.range 128, readsAlike (UInt8.ofNat n) = true :=
    List.all_eq_true.1 (by decide +kernel)
  have hb := hall b.toNat (List.mem_range.2 h)
  rwa [UInt8.ofNat_toNat] at hb

/-- One byte, as a character of a label. -/
theorem DomainScan.feed_eq (d : DomainScan) {b : UInt8} (h : b.toNat < 0x80) :
    d.feed b =
      if lowered b = '.' then
        if d.labelLen = 0 ∨ d.prev = 0x2d then .error .invalid
        else .ok ⟨d.hash.feed (lowered b).val, 0, d.dots + 1, lowerByte b, d.alpha⟩
      else if isLabelEdge (lowered b) = true ∨ lowered b = '-' ∧ 0 < d.labelLen then
        if d.labelLen + 1 > 63 then .error .invalid
        else .ok ⟨d.hash.feed (lowered b).val, d.labelLen + 1, d.dots, lowerByte b,
          d.alpha || decide ('9' < lowered b)⟩
      else .error .invalid := by
  have halike := readsAlike_of_ascii h
  simp only [readsAlike, Bool.and_eq_true, beq_iff_eq] at halike
  obtain ⟨⟨⟨⟨⟨hdot, hedge⟩, hhyphen⟩, hletter⟩, hval⟩, _⟩ := halike
  have hdot' : lowerByte b = 0x2e ↔ lowered b = '.' := by
    rw [← beq_iff_eq, hdot, beq_iff_eq]
  have hhyphen' : lowerByte b = 0x2d ↔ lowered b = '-' := by
    rw [← beq_iff_eq, hhyphen, beq_iff_eq]
  have hascii : ¬b ≥ 0x80 := by
    intro hge
    rw [ge_iff_le, UInt8.le_iff_toNat_le] at hge
    exact Nat.lt_irrefl _ (Nat.lt_of_lt_of_le h hge)
  have htest : (isAlnum (lowerByte b) || decide (lowerByte b = 0x5f) ||
      (decide (lowerByte b = 0x2d) && decide (d.labelLen > 0))) = true ↔
      isLabelEdge (lowered b) = true ∨ lowered b = '-' ∧ 0 < d.labelLen := by
    rw [← hedge]
    simp [hhyphen']
  have hfeed : d.feed b =
      if lowerByte b = 0x2e then
        if (decide (d.labelLen = 0) || decide (d.prev = 0x2d)) = true then .error .invalid
        else .ok ⟨d.hash.feed (lowerByte b).toUInt32, 0, d.dots + 1, lowerByte b, d.alpha⟩
      else if (isAlnum (lowerByte b) || decide (lowerByte b = 0x5f) ||
          (decide (lowerByte b = 0x2d) && decide (d.labelLen > 0))) = true then
        if d.labelLen + 1 > 63 then .error .invalid
        else .ok ⟨d.hash.feed (lowerByte b).toUInt32, d.labelLen + 1, d.dots, lowerByte b,
          d.alpha || decide (lowerByte b > 0x39)⟩
      else .error .invalid := by
    rw [feed, if_neg hascii]
    rfl
  rw [hfeed, ← hval, hletter]
  simp only [hdot', htest, Bool.or_eq_true, decide_eq_true_eq]

/-- The scan of the bytes of a list. -/
def scanBytes (d : DomainScan) : Bytes → Except NoHash DomainScan
  | [] => .ok d
  | b :: bs =>
      match d.feed b with
      | .error r => .error r
      | .ok d => scanBytes d bs

theorem scanDomain_eq_scanBytes (buf : Bytes) {n i : Nat} (d : DomainScan)
    (h : i + n ≤ buf.length) : scanDomain buf n i d = scanBytes d (slice buf i (i + n)) := by
  induction n generalizing i d with
  | zero =>
      simp [scanDomain, slice, scanBytes]
  | succ n ih =>
      have hi : i < buf.length := by omega
      have hcons : slice buf i (i + (n + 1)) = buf[i] :: slice buf (i + 1) (i + 1 + n) := by
        rw [slice, List.drop_eq_getElem_cons (by rw [List.length_take]; omega), slice,
          List.getElem_take, Nat.add_right_comm, Nat.add_assoc]
      rw [scanDomain, List.getElem?_eq_getElem hi, hcons, scanBytes]
      dsimp only
      cases d.feed buf[i] with
      | error r =>
          rfl
      | ok d' =>
          exact ih d' (by omega)

/-! ## The scan of a name -/

/-- The scan stands in a label that begins so. -/
structure InLabel (d : DomainScan) (cur : Text) : Prop where
  noDot : '.' ∉ cur
  head : ∀ c ∈ cur.head?, isLabelEdge c = true
  chars : ∀ c ∈ cur, isLabelChar c = true
  short : cur.length ≤ 63
  len : d.labelLen = cur.length
  hyphen : d.prev = 0x2d ↔ cur.getLast? = some '-'

theorem InLabel.labelOk_iff {d : DomainScan} {cur : Text} (h : InLabel d cur) :
    labelOk cur = true ↔ d.labelLen ≠ 0 ∧ d.prev ≠ 0x2d := by
  rw [Dns.labelOk_iff, h.len, ne_eq, ne_eq, ne_eq, ne_eq, List.length_eq_zero_iff, h.hyphen]
  exact ⟨fun hok => ⟨hok.1, hok.2.2.2.2⟩, fun hok => ⟨hok.1, h.head, h.chars, h.short, hok.2⟩⟩

theorem lowerByte_eq_hyphen {b : UInt8} (hb : b.toNat < 0x80) :
    lowerByte b = 0x2d ↔ lowered b = '-' := by
  have halike := readsAlike_of_ascii hb
  simp only [readsAlike, Bool.and_eq_true, beq_iff_eq] at halike
  rw [← beq_iff_eq, halike.1.1.1.2, beq_iff_eq]

/-- Behind a dot a label begins. -/
theorem InLabel.begins (h : HashState) (dots : Nat) {b : UInt8} (hb : b.toNat < 0x80)
    (hdot : lowered b = '.') (alpha : Bool) : InLabel ⟨h, 0, dots, lowerByte b, alpha⟩ [] := by
  have hprev : lowerByte b ≠ 0x2d := by
    rw [ne_eq, lowerByte_eq_hyphen hb, hdot]
    decide
  exact ⟨by simp, by simp, by simp, by simp, rfl, by simp [hprev]⟩

/-- One more character of a label. -/
theorem InLabel.next {d : DomainScan} {cur : Text} (hd : InLabel d cur) {b : UInt8}
    (hb : b.toNat < 0x80) (hdot : lowered b ≠ '.')
    (hchar : isLabelEdge (lowered b) = true ∨ lowered b = '-' ∧ 0 < d.labelLen)
    (hshort : d.labelLen + 1 ≤ 63) (h : HashState) (alpha : Bool) :
    InLabel ⟨h, d.labelLen + 1, d.dots, lowerByte b, alpha⟩ (cur ++ [lowered b]) := by
  refine ⟨?_, ?_, ?_, ?_, ?_, ?_⟩
  · rw [List.mem_append, List.mem_singleton, not_or]
    exact ⟨hd.noDot, fun h => hdot h.symm⟩
  · intro c hc
    cases cur with
    | nil =>
        obtain rfl := Option.some.inj hc
        rcases hchar with hedge | ⟨_, hpos⟩
        · exact hedge
        · rw [hd.len] at hpos
          cases hpos
    | cons x cur =>
        exact hd.head c hc
  · intro c hc
    rcases List.mem_append.1 hc with hc | hc
    · exact hd.chars c hc
    · rw [List.mem_singleton.1 hc]
      rcases hchar with hedge | ⟨heq, _⟩
      · simp [isLabelChar, hedge]
      · simp [isLabelChar, heq]
  · rw [List.length_append, List.length_singleton, ← hd.len]
    exact hshort
  · rw [List.length_append, List.length_singleton, ← hd.len]
  · rw [List.getLast?_concat, Option.some.injEq]
    exact lowerByte_eq_hyphen hb

/-- A character that is refused can not stand there in a valid label. -/
theorem InLabel.refused {d : DomainScan} {cur : Text} (hd : InLabel d cur) {x : Char} (hdot : x ≠ '.')
    (hchar : ¬((isLabelEdge x = true ∨ x = '-' ∧ 0 < d.labelLen) ∧ d.labelLen + 1 ≤ 63)) (t : Text) :
    ((cur ++ [x] ++ t).splitOn '.').all labelOk ≠ true := by
  have hnoDot : '.' ∉ cur ++ [x] := by
    rw [List.mem_append, List.mem_singleton, not_or]
    exact ⟨hd.noDot, fun h => hdot h.symm⟩
  intro hall
  obtain ⟨hhead, hchars, hlength⟩ := labels_prefix hnoDot hall
  apply hchar
  rw [List.length_append, List.length_singleton, ← hd.len] at hlength
  refine ⟨?_, hlength⟩
  have hx := hchars x (by simp)
  rw [isLabelChar, Bool.or_eq_true, beq_iff_eq] at hx
  rcases hx with hedge | heq
  · exact Or.inl hedge
  · cases cur with
    | nil =>
        exact Or.inl (hhead _ rfl)
    | cons y cur =>
        refine Or.inr ⟨heq, ?_⟩
        rw [hd.len]
        exact Nat.succ_pos _

/-- Where the scan of a name ends. -/
structure Scanned (d d' : DomainScan) (labels : Nat) (t : Text) : Prop where
  nonempty : d'.labelLen ≠ 0
  noHyphen : d'.prev ≠ 0x2d
  dots : d'.dots + 1 = d.dots + labels
  alpha : d'.alpha = (d.alpha || t.any fun c => decide ('9' < c))
  hash : d'.hash = (t.map Char.val).foldl HashState.feed d.hash

/-- A dot was read in front of the rest. -/
theorem Scanned.behindDot {d d' : DomainScan} {n : Nat} {t : Text} {prev : UInt8}
    (h : Scanned ⟨d.hash.feed ('.' : Char).val, 0, d.dots + 1, prev, d.alpha⟩ d' n t) :
    Scanned d d' (n + 1) ('.' :: t) := by
  have hdots : d'.dots + 1 = d.dots + 1 + n := h.dots
  refine ⟨h.nonempty, h.noHyphen, by omega, ?_, ?_⟩
  · rw [h.alpha, List.any_cons]
    simp
  · rw [h.hash, List.map_cons, List.foldl_cons]

/-- A character of a label was read in front of the rest. -/
theorem Scanned.behindChar {d d' : DomainScan} {n : Nat} {t : Text} {prev : UInt8} {x : Char}
    (h : Scanned ⟨d.hash.feed x.val, d.labelLen + 1, d.dots, prev, d.alpha || decide ('9' < x)⟩
      d' n t) : Scanned d d' n (x :: t) := by
  refine ⟨h.nonempty, h.noHyphen, h.dots, ?_, ?_⟩
  · rw [h.alpha, List.any_cons, Bool.or_assoc]
  · rw [h.hash, List.map_cons, List.foldl_cons]

/-- The scan comes to an end of a label if and only if all labels are valid. -/
theorem scanBytes_spec {d : DomainScan} {cur : Text} {bs : Bytes} (hd : InLabel d cur)
    (hascii : ∀ b ∈ bs, b.toNat < 0x80) :
    (((cur ++ bs.map lowered).splitOn '.').all labelOk = true → ∃ d', scanBytes d bs = .ok d' ∧
        Scanned d d' ((cur ++ bs.map lowered).splitOn '.').length (bs.map lowered)) ∧
      (((cur ++ bs.map lowered).splitOn '.').all labelOk = false →
        scanBytes d bs = .error .invalid ∨
          ∃ d', scanBytes d bs = .ok d' ∧ (d'.labelLen = 0 ∨ d'.prev = 0x2d)) := by
  induction bs generalizing d cur with
  | nil =>
      rw [List.map_nil, List.append_nil, List.splitOn_eq_singleton hd.noDot, List.all_cons,
        List.all_nil, Bool.and_true]
      constructor
      · intro hok
        obtain ⟨hlen, hprev⟩ := hd.labelOk_iff.1 hok
        exact ⟨d, rfl, hlen, hprev, rfl, by simp, rfl⟩
      · intro hbad
        refine Or.inr ⟨d, rfl, ?_⟩
        by_contra hne
        rw [not_or] at hne
        rw [hd.labelOk_iff.2 hne] at hbad
        cases hbad
  | cons b bs ih =>
      have hb := hascii b List.mem_cons_self
      have hbs : ∀ b ∈ bs, b.toNat < 0x80 := fun b hb => hascii b (List.mem_cons_of_mem _ hb)
      rw [List.map_cons, scanBytes, d.feed_eq hb]
      by_cases hdot : lowered b = '.'
      · -- the label ends
        rw [hdot, List.splitOn_append_cons_self_of_not_mem hd.noDot, List.all_cons, if_pos rfl]
        by_cases hend : d.labelLen = 0 ∨ d.prev = 0x2d
        · have hbad : labelOk cur = false := by
            rw [← Bool.not_eq_true, hd.labelOk_iff, ← not_or, not_not]
            exact hend
          rw [if_pos hend, hbad, Bool.false_and]
          exact ⟨fun h => Bool.noConfusion h, fun _ => Or.inl rfl⟩
        · rw [if_neg hend, hd.labelOk_iff.2 (not_or.1 hend), Bool.true_and]
          dsimp only
          obtain ⟨hok, hbad⟩ := ih (InLabel.begins (d.hash.feed ('.' : Char).val) (d.dots + 1) hb hdot
            d.alpha) hbs
          refine ⟨fun h => ?_, hbad⟩
          obtain ⟨d', hscan, hd'⟩ := hok h
          exact ⟨d', hscan, hd'.behindDot⟩
      · rw [if_neg hdot, List.append_cons]
        by_cases hchar : isLabelEdge (lowered b) = true ∨ lowered b = '-' ∧ 0 < d.labelLen
        · rw [if_pos hchar]
          by_cases hlong : d.labelLen + 1 > 63
          · -- the label is too long
            rw [if_pos hlong]
            have hbad := hd.refused hdot (fun h => Nat.not_le.2 hlong h.2) (bs.map lowered)
            exact ⟨fun h => absurd h hbad, fun _ => Or.inl rfl⟩
          · rw [if_neg hlong]
            dsimp only
            obtain ⟨hok, hbad⟩ := ih (hd.next hb hdot hchar (Nat.le_of_not_gt hlong)
              (d.hash.feed (lowered b).val) (d.alpha || decide ('9' < lowered b))) hbs
            refine ⟨fun h => ?_, hbad⟩
            obtain ⟨d', hscan, hd'⟩ := hok h
            exact ⟨d', hscan, hd'.behindChar⟩
        · -- no character of a label, or a hyphen at its beginning
          rw [if_neg hchar]
          have hbad := hd.refused hdot (fun h => hchar h.1) (bs.map lowered)
          exact ⟨fun h => absurd h hbad, fun _ => Or.inl rfl⟩

/-! ## Names -/

/-- A row of two or more valid labels, of at most 253 characters. -/
def isName (t : Text) : Bool :=
  decide (t.length ≤ 253) && decide (2 ≤ (t.splitOn '.').length) && (t.splitOn '.').all labelOk

/-- Bytes without their final dot. -/
def dropDot (bs : Bytes) : Bytes := if bs.getLast? = some 0x2e then bs.dropLast else bs

theorem hash53_of_ascii {t : Text} (h : ∀ c ∈ t, isAscii c = true) :
    hash53 t = ((t.map Char.val).foldl HashState.feed .start).finish := by
  rw [hash53, codeUnits_of_ascii h]

theorem lowered_ascii {bs : Bytes} (h : ∀ b ∈ bs, b.toNat < 0x80) :
    ∀ c ∈ bs.map lowered, isAscii c = true := by
  intro c hc
  obtain ⟨b, hb, rfl⟩ := List.mem_map.1 hc
  have halike := readsAlike_of_ascii (h b hb)
  simp only [readsAlike, Bool.and_eq_true] at halike
  exact halike.2

theorem three_le_of_isName {t : Text} (h : isName t = true) : 3 ≤ t.length := by
  simp only [isName, Bool.and_eq_true, decide_eq_true_eq] at h
  obtain ⟨⟨_, htwo⟩, hlabels⟩ := h
  have hjoin : ['.'].intercalate (t.splitOn '.') = t := List.intercalate_splitOn '.'
  cases hsplit : t.splitOn '.' with
  | nil =>
      exact absurd hsplit (List.splitOn_ne_nil '.' t)
  | cons a rest =>
      cases rest with
      | nil =>
          rw [hsplit, List.length_singleton] at htwo
          omega
      | cons b rest =>
          rw [hsplit, List.all_cons, List.all_cons, Bool.and_eq_true, Bool.and_eq_true] at hlabels
          have ha := List.length_pos_of_ne_nil ((labelOk_iff a).1 hlabels.1).1
          have hb := List.length_pos_of_ne_nil ((labelOk_iff b).1 hlabels.2.1).1
          have hle : b.length ≤ (['.'].intercalate (b :: rest)).length := by
            cases rest with
            | nil =>
                rw [List.intercalate_singleton]
            | cons c rest =>
                rw [List.intercalate_cons_cons, List.length_append, List.length_append]
                omega
          rw [← hjoin, hsplit, List.intercalate_cons_cons, List.length_append, List.length_append,
            List.length_singleton]
          omega

theorem dropDot_ascii {bs : Bytes} (h : ∀ b ∈ bs, b.toNat < 0x80) :
    ∀ b ∈ dropDot bs, b.toNat < 0x80 := by
  intro b hb
  apply h
  rw [dropDot] at hb
  split at hb
  · exact (List.dropLast_sublist _).subset hb
  · exact hb

/-- The range without its final dot, as the check takes it. -/
theorem dropDot_slice {buf : Bytes} {s e : Nat} (hse : s ≤ e) (he : e ≤ buf.length) :
    ∃ e', dropDot (slice buf s e) = slice buf s e' ∧ s ≤ e' ∧ e' ≤ e ∧
      (if e > s ∧ buf[e - 1]? = some 0x2e then e - 1 else e) = e' := by
  by_cases hlt : s < e
  · have hlast : (slice buf s e).getLast? = buf[e - 1]? := by
      have hlength := length_slice (s := s) he
      rw [List.getLast?_eq_getElem?, hlength, getElem?_slice buf (by omega)]
      congr 1
      omega
    rw [dropDot, hlast]
    by_cases hdot : buf[e - 1]? = some 0x2e
    · rw [if_pos hdot, if_pos ⟨hlt, hdot⟩]
      refine ⟨e - 1, ?_, by omega, by omega, rfl⟩
      rw [List.dropLast_eq_take, length_slice he, slice, slice, List.take_drop, List.take_take]
      congr 2
      omega
    · rw [if_neg hdot, if_neg fun h => hdot h.2]
      exact ⟨e, rfl, hse, Nat.le_refl e, rfl⟩
  · -- an empty range has no last byte
    obtain rfl : s = e := by omega
    have hnil : slice buf s s = [] := by
      apply List.eq_nil_of_length_eq_zero
      rw [length_slice he, Nat.sub_self]
    rw [if_neg fun h => hlt h.1, hnil]
    exact ⟨s, hnil.symm, Nat.le_refl s, Nat.le_refl s, rfl⟩

/-- What is made of the end of the scan. -/
def scanVerdict (r : Except NoHash DomainScan) : Except NoHash Nat :=
  match r with
  | .error r => .error r
  | .ok d =>
    if d.labelLen = 0 || d.prev = 0x2d || d.dots = 0 || !d.alpha then .error .invalid
    else .ok d.hash.finish

theorem scanVerdict_scanBytes {bs : Bytes} (hascii : ∀ b ∈ bs, b.toNat < 0x80)
    (hlong : bs.length ≤ 253) :
    scanVerdict (scanBytes .start bs) =
      if isName (bs.map lowered) = true ∧
          (bs.map lowered).any (fun c => decide ('9' < c)) = true then
        .ok (hash53 (bs.map lowered))
      else .error .invalid := by
  have hstart : InLabel .start [] :=
    ⟨by simp, by simp, by simp, by simp, rfl, by simp [DomainScan.start]⟩
  obtain ⟨hok, hbad⟩ := scanBytes_spec hstart hascii
  rw [List.nil_append] at hok hbad
  have hlabels : isName (bs.map lowered) = true ↔ 2 ≤ ((bs.map lowered).splitOn '.').length ∧
      ((bs.map lowered).splitOn '.').all labelOk = true := by
    simp only [isName, Bool.and_eq_true, decide_eq_true_eq, List.length_map]
    exact ⟨fun h => ⟨h.1.2, h.2⟩, fun h => ⟨⟨hlong, h.1⟩, h.2⟩⟩
  cases hall : ((bs.map lowered).splitOn '.').all labelOk with
  | false =>
      have hnot : ¬isName (bs.map lowered) = true := by
        intro hname
        have hlab := (hlabels.1 hname).2
        rw [hall] at hlab
        cases hlab
      rw [if_neg fun h => hnot h.1]
      rcases hbad hall with herr | ⟨d', hd', hend'⟩
      · rw [herr]
        rfl
      · rw [hd', scanVerdict, if_pos]
        rcases hend' with h | h
        · simp [h]
        · simp [h]
  | true =>
      obtain ⟨d', hd', hscanned⟩ := hok hall
      rw [hd', scanVerdict]
      have hdots : d'.dots = 0 ↔ ¬2 ≤ ((bs.map lowered).splitOn '.').length := by
        have hcount : d'.dots + 1 = 0 + ((bs.map lowered).splitOn '.').length := hscanned.dots
        have hpos := List.length_pos_of_ne_nil (List.splitOn_ne_nil '.' (bs.map lowered))
        omega
      have halpha : d'.alpha = (bs.map lowered).any fun c => decide ('9' < c) := by
        rw [hscanned.alpha]
        rfl
      have hhash : d'.hash = ((bs.map lowered).map Char.val).foldl HashState.feed .start :=
        hscanned.hash
      rw [hash53_of_ascii (lowered_ascii hascii)]
      -- the labels are valid, so only the dots and the letter are left to ask for
      by_cases hgood : isName (bs.map lowered) = true ∧
          (bs.map lowered).any (fun c => decide ('9' < c)) = true
      · have hnotdots : d'.dots ≠ 0 := fun h => hdots.1 h (hlabels.1 hgood.1).1
        rw [if_pos hgood, if_neg, hhash]
        simp [hscanned.nonempty, hscanned.noHyphen, hnotdots, halpha, hgood.2]
      · rw [if_neg hgood, if_pos]
        simp only [Bool.or_eq_true, decide_eq_true_eq, Bool.not_eq_true', halpha]
        by_cases htwo : 2 ≤ ((bs.map lowered).splitOn '.').length
        · refine Or.inr (Bool.eq_false_iff.2 fun hany => hgood ⟨hlabels.2 ⟨htwo, hall⟩, hany⟩)
        · exact Or.inl (Or.inr (hdots.2 htwo))

/-- What the check of the bytes amounts to. -/
theorem hashDomainBytes_slice {buf : Bytes} {s e : Nat} (hse : s ≤ e) (he : e ≤ buf.length)
    (hascii : ∀ b ∈ slice buf s e, b.toNat < 0x80) :
    hashDomainBytes buf s e =
      if isName ((dropDot (slice buf s e)).map lowered) = true ∧
          ((dropDot (slice buf s e)).map lowered).any (fun c => decide ('9' < c)) = true then
        .ok (hash53 ((dropDot (slice buf s e)).map lowered))
      else .error .invalid := by
  have hascii' := dropDot_ascii hascii
  obtain ⟨e', hbytes, hse', he', hend⟩ := dropDot_slice hse he
  have hlength : (slice buf s e').length = e' - s := length_slice (by omega)
  have hscan := scanDomain_eq_scanBytes buf (n := e' - s) .start (i := s) (by omega)
  rw [Nat.add_sub_cancel' hse'] at hscan
  rw [hbytes] at hascii' ⊢
  rw [hashDomainBytes, hend, hscan]
  by_cases hlen : e' - s < 3 ∨ e' - s > 253
  · -- too short or too long for a name
    rw [if_pos hlen, if_neg]
    rintro ⟨hname, _⟩
    have hthree := three_le_of_isName hname
    simp only [isName, Bool.and_eq_true, decide_eq_true_eq] at hname
    rw [List.length_map] at hthree hname
    omega
  · rw [if_neg hlen, ← scanVerdict_scanBytes hascii' (by omega)]
    rfl

/-! ## The two checks -/

/-- A text without its final dot. -/
def withoutDot (t : Text) : Text := if t.getLast? = some '.' then t.dropLast else t

/-- A digit, a dot or a hyphen. -/
def isHyphenNumberChar (c : Char) : Bool := isIpv4Char c || c == '-'

/-- Only digits, dots and hyphens, and at least one hyphen. -/
def isHyphenNumber (t : Text) : Bool := t.all isHyphenNumberChar && t.any (· == '-')

theorem hyphenNumberChar_lower (c : Char) :
    isHyphenNumberChar (asciiLower c) = isHyphenNumberChar c := by
  by_cases hc : 'A' ≤ c ∧ c ≤ 'Z'
  · -- neither a capital letter nor a small one
    have hall : ∀ n ∈ List.range 26, isHyphenNumberChar (asciiLower (Char.ofNat (65 + n))) =
        isHyphenNumberChar (Char.ofNat (65 + n)) :=
      List.forall_iff_forall_mem.1 (by decide +kernel)
    have hlow : 65 ≤ c.toNat := hc.1
    have hhigh : c.toNat ≤ 90 := hc.2
    have hthis := hall (c.toNat - 65) (List.mem_range.2 (by omega))
    rwa [Nat.add_sub_cancel' hlow, Char.ofNat_toNat] at hthis
  · rw [asciiLower, if_neg hc]

theorem lower_of_hyphenNumber {t : Text} (h : isHyphenNumber t = true) : t.map asciiLower = t := by
  simp only [isHyphenNumber, Bool.and_eq_true, List.all_eq_true] at h
  conv_rhs => rw [← List.map_id t]
  refine List.map_congr_left fun c hc => ?_
  have hchar := h.1 c hc
  rw [asciiLower, if_neg]
  · rfl
  · rintro ⟨hlow, hhigh⟩
    have hle : '9'.toNat < 'A'.toNat := by decide
    have hbound : c.toNat ≤ '9'.toNat := by
      simp only [isHyphenNumberChar, isIpv4Char, Bool.or_eq_true, Bool.and_eq_true,
        decide_eq_true_eq, beq_iff_eq] at hchar
      rcases hchar with (⟨_, hdigit⟩ | rfl) | rfl
      · exact hdigit
      · decide
      · decide
    have hlow' : 'A'.toNat ≤ c.toNat := hlow
    omega

theorem isHyphenNumber_lower (t : Text) : isHyphenNumber (t.map asciiLower) = true ↔
    isHyphenNumber t = true := by
  have hall : (t.map asciiLower).all isHyphenNumberChar = t.all isHyphenNumberChar := by
    rw [List.all_map]
    exact congrArg t.all (funext hyphenNumberChar_lower)
  constructor
  · intro h
    simp only [isHyphenNumber, Bool.and_eq_true, hall] at h ⊢
    refine ⟨h.1, ?_⟩
    obtain ⟨x, hx, hhyphen⟩ := List.any_eq_true.1 h.2
    obtain ⟨c, hc, rfl⟩ := List.mem_map.1 hx
    refine List.any_eq_true.2 ⟨c, hc, ?_⟩
    have hchar := List.all_eq_true.1 h.1 c hc
    -- a capital letter is no hyphen number character
    have hsame : asciiLower c = c := by
      have hone : isHyphenNumber [c, '-'] = true := by
        simp [isHyphenNumber, hchar, show isHyphenNumberChar '-' = true by decide]
      exact (List.cons.inj (lower_of_hyphenNumber hone)).1
    rwa [hsame] at hhyphen
  · intro h
    rwa [lower_of_hyphenNumber h]

/-- A row of valid labels is refused as an address, or kept. -/
theorem checkLabels_eq (t : Text) (hlength : t.length ≤ 253) :
    checkLabels t false = if isName t = true ∧ t.all isIpv4Char = false then some t else none := by
  rw [checkLabels]
  by_cases hip : t.all isIpv4Char = true
  · rw [if_pos hip, if_neg]
    rintro ⟨_, hno⟩
    rw [hip] at hno
    cases hno
  · rw [if_neg hip]
    dsimp only
    by_cases htwo : (t.splitOn '.').length < 2
    · rw [if_pos (by simp [htwo]), if_neg]
      rintro ⟨hname, _⟩
      simp only [isName, Bool.and_eq_true, decide_eq_true_eq] at hname
      omega
    · have hge : 2 ≤ (t.splitOn '.').length := Nat.le_of_not_lt htwo
      rw [if_neg (by simp [htwo])]
      simp [isName, hlength, hge, hip]

/-- A valid name that is no address has a letter or an underscore, or it has a hyphen. -/
theorem hyphenNumber_iff {t : Text} (hname : isName t = true) (hip : t.all isIpv4Char = false) :
    t.any (fun c => decide ('9' < c)) = false ↔ isHyphenNumber t = true := by
  have hlength : t.length ≤ 253 := by
    simp only [isName, Bool.and_eq_true, decide_eq_true_eq] at hname
    exact hname.1.1
  have hclean : CleanName t := by
    apply cleanName_of_checkLabels (s := t)
    rw [checkLabels_eq t hlength, if_pos ⟨hname, hip⟩]
  have hchar : ∀ c ∈ t, decide ('9' < c) = false ↔ isHyphenNumberChar c = true := by
    intro c hc
    have hnat : ∀ a b : Char, a ≤ b ↔ a.toNat ≤ b.toNat := fun a b => Iff.rfl
    have hlt : '9' < c ↔ '9'.toNat < c.toNat := Iff.rfl
    simp only [isHyphenNumberChar, isIpv4Char, Bool.or_eq_true, Bool.and_eq_true,
      decide_eq_true_eq, beq_iff_eq, decide_eq_false_iff_not, hnat, hlt]
    rcases nameChar_cases (hclean.chars c hc) with rfl | ⟨hlow, hhigh⟩ | ⟨hlow, hhigh⟩ | rfl | rfl
    · decide
    · rw [hnat] at hlow
      have hne : c ≠ '.' ∧ c ≠ '-' := by
        constructor
        · rintro rfl
          exact absurd hlow (by decide)
        · rintro rfl
          exact absurd hlow (by decide)
      simp only [Char.reduceToNat] at hlow ⊢
      simp only [hne.1, hne.2, or_false]
      omega
    · rw [hnat] at hlow hhigh
      simp only [Char.reduceToNat] at hlow hhigh ⊢
      simp only [hlow, hhigh, and_self, true_or, iff_true]
      omega
    · decide
    · decide
  rw [isHyphenNumber, Bool.and_eq_true, List.all_eq_true, List.any_eq_false]
  constructor
  · intro hnone
    have hall : ∀ c ∈ t, isHyphenNumberChar c = true := fun c hc =>
      (hchar c hc).1 (Bool.eq_false_iff.2 (hnone c hc))
    refine ⟨hall, ?_⟩
    obtain ⟨c, hc, hno⟩ := List.all_eq_false.1 hip
    have hthis := hall c hc
    rw [isHyphenNumberChar, Bool.or_eq_true] at hthis
    exact List.any_eq_true.2 ⟨c, hc, hthis.resolve_left hno⟩
  · rintro ⟨hall, _⟩ c hc
    exact Bool.eq_false_iff.1 ((hchar c hc).2 (hall c hc))

/-- An address has neither what the check of the bytes wants nor a hyphen. -/
theorem neither_of_ip {t : Text} (hip : t.all isIpv4Char = true) :
    ¬t.any (fun c => decide ('9' < c)) = true ∧ ¬isHyphenNumber t = true := by
  constructor
  · rw [List.any_eq_true]
    rintro ⟨c, hc, hlarge⟩
    have hchar := List.all_eq_true.1 hip c hc
    simp only [isIpv4Char, Bool.or_eq_true, Bool.and_eq_true, decide_eq_true_eq,
      beq_iff_eq] at hchar hlarge
    rcases hchar with ⟨_, hdigit⟩ | rfl
    · exact absurd hlarge (Nat.not_lt.2 hdigit)
    · exact absurd hlarge (by decide)
  · simp only [isHyphenNumber, Bool.and_eq_true, not_and, List.any_eq_true, not_exists, beq_iff_eq]
    rintro _ c hc rfl
    exact absurd (List.all_eq_true.1 hip _ hc) (by decide)

section Range

variable {host : UnicodeHost} {bs : Bytes} (hascii : ∀ b ∈ bs, b.toNat < 0x80)

include hascii

theorem latin1_ascii : ∀ c ∈ latin1 bs, isAscii c = true := by
  intro c hc
  obtain ⟨b, hb, rfl⟩ := List.mem_map.1 hc
  have hall : ∀ n ∈ List.range 128, isAscii (Char.ofNat n) = true :=
    List.forall_iff_forall_mem.1 (by decide +kernel)
  exact hall b.toNat (List.mem_range.2 (hascii b hb))

theorem getLast?_latin1 : (latin1 bs).getLast? = some '.' ↔ bs.getLast? = some 0x2e := by
  have hdot : ∀ n ∈ List.range 128, Char.ofNat n = '.' ↔ UInt8.ofNat n = 0x2e :=
    List.forall_iff_forall_mem.1 (by decide +kernel)
  rw [latin1, List.getLast?_map, Option.map_eq_some_iff]
  constructor
  · rintro ⟨b, hb, hb'⟩
    have hthis := (hdot b.toNat (List.mem_range.2 (hascii b (List.mem_of_getLast? hb)))).1 hb'
    rw [UInt8.ofNat_toNat] at hthis
    rw [hb, hthis]
  · intro hb
    exact ⟨0x2e, hb, rfl⟩

theorem withoutDot_latin1 : withoutDot (latin1 bs) = latin1 (dropDot bs) := by
  rw [withoutDot, dropDot]
  simp only [getLast?_latin1 hascii]
  split
  · rw [latin1, latin1, List.map_dropLast]
  · rfl

/-- What the cleaning of a text of ASCII amounts to. -/
theorem cleanDomain_latin1 (htrim : trim (latin1 bs) = latin1 bs) :
    cleanDomain host (latin1 bs) false =
      if isName ((withoutDot (latin1 bs)).map asciiLower) = true ∧
          ((withoutDot (latin1 bs)).map asciiLower).all isIpv4Char = false then
        some ((withoutDot (latin1 bs)).map asciiLower)
      else none := by
  have hlower : lowerCase host (latin1 bs) = (latin1 bs).map asciiLower := by
    rw [lowerCase, if_pos (List.all_eq_true.2 (latin1_ascii hascii))]
  have hlowered : (latin1 bs).map asciiLower = bs.map lowered := by
    rw [latin1, List.map_map]
    rfl
  have hlast : ((latin1 bs).map asciiLower).getLast? = some '.' ↔ (latin1 bs).getLast? = some '.' := by
    rw [getLast?_latin1 hascii, hlowered]
    have hdot : ∀ n ∈ List.range 128, lowered (UInt8.ofNat n) = '.' ↔ UInt8.ofNat n = 0x2e :=
      List.forall_iff_forall_mem.1 (by decide +kernel)
    rw [List.getLast?_map, Option.map_eq_some_iff]
    constructor
    · rintro ⟨b, hb, hb'⟩
      have hb128 := List.mem_range.2 (hascii b (List.mem_of_getLast? hb))
      rw [← UInt8.ofNat_toNat (x := b)] at hb'
      have hthis := (hdot b.toNat hb128).1 hb'
      rw [UInt8.ofNat_toNat] at hthis
      rw [hb, hthis]
    · intro hb
      exact ⟨0x2e, hb, by decide⟩
  have hcut : (if ((latin1 bs).map asciiLower).getLast? = some '.' then
      ((latin1 bs).map asciiLower).dropLast else (latin1 bs).map asciiLower) =
      (withoutDot (latin1 bs)).map asciiLower := by
    rw [withoutDot]
    simp only [hlast]
    split
    · rw [List.map_dropLast]
    · rfl
  have hascii' : ∀ c ∈ (withoutDot (latin1 bs)).map asciiLower, isAscii c = true := by
    rw [withoutDot_latin1 hascii, latin1, List.map_map]
    exact lowered_ascii (dropDot_ascii hascii)
  rw [cleanDomain]
  simp only [htrim, hlower, hcut]
  rw [jsLength_of_ascii hascii', if_pos (List.all_eq_true.2 hascii')]
  generalize (withoutDot (latin1 bs)).map asciiLower = t
  by_cases hshort : t = [] ∨ t.length > 253
  · rw [if_pos hshort, if_neg]
    rintro ⟨hname, _⟩
    have hthree := three_le_of_isName hname
    simp only [isName, Bool.and_eq_true, decide_eq_true_eq] at hname
    rcases hshort with rfl | hlong
    · exact absurd hthree (by decide)
    · omega
  · rw [if_neg hshort, checkLabels_eq t (by omega)]

end Range

/-- In a range of ASCII that does not begin or end with white space, the check of the bytes agrees
with the cleaning of the text, unless the text is a valid name of digits, dots and hyphens with at
least one hyphen. -/
theorem hashDomainBytes_agrees_iff (host : UnicodeHost) {buf : Bytes} {s e : Nat} (hse : s ≤ e)
    (he : e ≤ buf.length) (hascii : ∀ b ∈ slice buf s e, b.toNat < 0x80)
    (hhead : ∀ c ∈ (utf8 (slice buf s e)).head?, isTrimmed c = false)
    (hlast : ∀ c ∈ (utf8 (slice buf s e)).getLast?, isTrimmed c = false) :
    (hashDomainBytes buf s e =
      match cleanDomain host (utf8 (slice buf s e)) false with
      | none => .error .invalid
      | some d => .ok (hash53 d)) ↔
    ¬(isName (withoutDot (utf8 (slice buf s e))) = true ∧
      isHyphenNumber (withoutDot (utf8 (slice buf s e))) = true) := by
  have htrim := trim_eq_self hhead hlast
  rw [utf8_of_ascii hascii] at htrim ⊢
  have hname : (dropDot (slice buf s e)).map lowered =
      (withoutDot (latin1 (slice buf s e))).map asciiLower := by
    rw [withoutDot_latin1 hascii, latin1, List.map_map]
    rfl
  rw [hashDomainBytes_slice hse he hascii, cleanDomain_latin1 hascii htrim, hname]
  -- a text of digits, dots and hyphens is in lower case
  have hcond : isName (withoutDot (latin1 (slice buf s e))) = true ∧
      isHyphenNumber (withoutDot (latin1 (slice buf s e))) = true ↔
      isName ((withoutDot (latin1 (slice buf s e))).map asciiLower) = true ∧
        isHyphenNumber ((withoutDot (latin1 (slice buf s e))).map asciiLower) = true := by
    rw [isHyphenNumber_lower]
    constructor
    · rintro ⟨hn, hh⟩
      rw [lower_of_hyphenNumber hh]
      exact ⟨hn, hh⟩
    · rintro ⟨hn, hh⟩
      rw [lower_of_hyphenNumber hh] at hn
      exact ⟨hn, hh⟩
  rw [hcond]
  generalize (withoutDot (latin1 (slice buf s e))).map asciiLower = t
  by_cases hvalid : isName t = true
  · by_cases hip : t.all isIpv4Char = true
    · -- an address for both
      obtain ⟨hnone, hhyphen⟩ := neither_of_ip hip
      rw [if_neg fun h => hnone h.2, if_neg fun h => by rw [hip] at h; cases h.2]
      simp [hhyphen]
    · rw [Bool.not_eq_true] at hip
      have hiff := hyphenNumber_iff hvalid hip
      have hclean : (if isName t = true ∧ t.all isIpv4Char = false then some t else none) = some t :=
        if_pos ⟨hvalid, hip⟩
      rw [hclean]
      dsimp only
      cases hany : t.any fun c => decide ('9' < c) with
      | true =>
          have hno : ¬isHyphenNumber t = true := by
            rw [← hiff, hany]
            decide
          rw [if_pos ⟨hvalid, rfl⟩]
          simp [hno]
      | false =>
          rw [if_neg (by simp)]
          simp [hvalid, hiff.1 hany]
  · rw [if_neg fun h => hvalid h.1, if_neg fun h => hvalid h.1]
    simp [hvalid]

/-- A name with a letter, in capitals and with a final dot. -/
theorem hashDomainBytes_agrees_capital :
    hashDomainBytes (asciiBytes "0-A.De.".toList) 0 7 =
      match cleanDomain .ascii (utf8 (slice (asciiBytes "0-A.De.".toList) 0 7)) false with
      | none => .error .invalid
      | some d => .ok (hash53 d) := by
  have hhead : (utf8 (slice (asciiBytes "0-A.De.".toList) 0 7)).head? = some '0' := by decide
  have hlast : (utf8 (slice (asciiBytes "0-A.De.".toList) 0 7)).getLast? = some '.' := by decide
  refine (hashDomainBytes_agrees_iff .ascii (by decide) (by decide)
    (List.forall_iff_forall_mem.1 (by decide)) ?_ ?_).2 (by decide)
  · rintro c hc
    rw [hhead] at hc
    obtain rfl : '0' = c := Option.some.inj hc
    decide
  · rintro c hc
    rw [hlast] at hc
    obtain rfl : '.' = c := Option.some.inj hc
    decide

/-- `1-2.3` is a name for a pattern or a query, and none for a list. -/
theorem hashDomainBytes_hyphen_number :
    hashDomainBytes (asciiBytes "1-2.3".toList) 0 5 = .error .invalid ∧
      cleanDomain .ascii (utf8 (slice (asciiBytes "1-2.3".toList) 0 5)) false =
        some "1-2.3".toList := by
  decide +kernel

end Dns
end GateControl
