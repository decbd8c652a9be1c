import GateControl.Dns.Messages

/-!
# Names — names as they stand in messages

A name in a message is its labels, each behind its length, and a zero.  `encodeName` writes such a
name, and both readers take it apart again: `readQuestionName` for requests, with its limit of 255
bytes, and `readName` for replies, with its limit of 128 labels.
-/

namespace GateControl
namespace Dns

open Library

namespace Wire

/-! ## Labels and their lengths -/

def wireLabels (labels : List Bytes) : Bytes :=
  labels.flatMap fun l => UInt8.ofNat l.length :: l

def wireName (labels : List Bytes) : Bytes := wireLabels labels ++ [0]

/-- The length of a label fits the six bits it has. -/
def LabelSize (l : Bytes) : Prop := 1 ≤ l.length ∧ l.length ≤ 63

theorem wireLabels_cons (l : Bytes) (labels : List Bytes) :
    wireLabels (l :: labels) = UInt8.ofNat l.length :: (l ++ wireLabels labels) := rfl

theorem wireName_cons (l : Bytes) (labels : List Bytes) :
    wireName (l :: labels) = UInt8.ofNat l.length :: (l ++ wireName labels) := by
  simp [wireName, wireLabels_cons]

theorem length_wireName (labels : List Bytes) :
    (wireName labels).length = (wireLabels labels).length + 1 := by
  simp [wireName]

theorem LabelSize.toNat {l : Bytes} (h : LabelSize l) : (UInt8.ofNat l.length).toNat = l.length := by
  have := h.2
  rw [UInt8.toNat_ofNat', Nat.mod_eq_of_lt]
  omega

/-- A label at the beginning of a name: its length, its bytes, and the rest behind it. -/
theorem label_at {buf : Bytes} {pos : Nat} {l : Bytes} {labels : List Bytes}
    (hbuf : BytesAt buf pos (wireName (l :: labels))) (hsize : LabelSize l) :
    (∃ b, buf[pos]? = some b ∧ b.toNat = l.length) ∧ pos + 1 + l.length ≤ buf.length ∧
      slice buf (pos + 1) (pos + 1 + l.length) = l ∧
      BytesAt buf (pos + 1 + l.length) (wireName labels) := by
  rw [wireName_cons] at hbuf
  have hlabel := hbuf.tail.left
  exact ⟨⟨_, hbuf.head, hsize.toNat⟩, hlabel.length_le, hlabel.slice_eq, hbuf.tail.right⟩

/-! ## Reading a name of a request -/

variable {buf : Bytes} {pos : Nat}

theorem readQuestionLabelsFrom_byte {b : UInt8} (hb : buf[pos]? = some b) (acc : List Bytes)
    (total : Nat) :
    readQuestionLabelsFrom buf acc pos total =
      if b.toNat = 0 then some ⟨acc, pos + 1⟩
      else if b.toNat > 63 then none
      else if pos + 1 + b.toNat > buf.length then none
      else if total + (b.toNat + 1) > 255 then none
      else readQuestionLabelsFrom buf (acc ++ [slice buf (pos + 1) (pos + 1 + b.toNat)])
        (pos + 1 + b.toNat) (total + (b.toNat + 1)) := by
  rw [readQuestionLabelsFrom]
  split
  · rename_i hnone
    rw [hb] at hnone
    cases hnone
  · rename_i b' hb'
    obtain rfl : b' = b := Option.some.inj (hb'.symm.trans hb)
    rfl

theorem readQuestionNameFrom_byte {b : UInt8} (hb : buf[pos]? = some b) (total : Nat) :
    readQuestionNameFrom buf pos total =
      if b.toNat = 0 then some (pos + 1)
      else if b.toNat > 63 then none
      else if pos + 1 + b.toNat > buf.length then none
      else if total + (b.toNat + 1) > 255 then none
      else readQuestionNameFrom buf (pos + 1 + b.toNat) (total + (b.toNat + 1)) := by
  rw [readQuestionNameFrom]
  split
  · rename_i hnone
    rw [hb] at hnone
    cases hnone
  · rename_i b' hb'
    obtain rfl : b' = b := Option.some.inj (hb'.symm.trans hb)
    rfl

theorem readQuestionLabelsFrom_wire {labels : List Bytes} {total : Nat}
    (hbuf : BytesAt buf pos (wireName labels)) (hsize : ∀ l ∈ labels, LabelSize l)
    (htotal : total + (wireLabels labels).length ≤ 255) (acc : List Bytes) :
    readQuestionLabelsFrom buf acc pos total =
      some ⟨acc ++ labels, pos + (wireName labels).length⟩ := by
  induction labels generalizing pos total acc with
  | nil =>
      rw [readQuestionLabelsFrom_byte hbuf.head]
      simp [wireName, wireLabels]
  | cons l labels ih =>
      have hl := hsize l List.mem_cons_self
      obtain ⟨⟨b, hb, hlen⟩, hfit, hslice, hrest⟩ := label_at hbuf hl
      have hpos := hl.1
      have hmax := hl.2
      rw [wireLabels_cons] at htotal
      simp only [List.length_cons, List.length_append] at htotal
      have hfew : total + (l.length + 1) + (wireLabels labels).length ≤ 255 := by
        omega
      have hnext := ih hrest (fun l hl => hsize l (List.mem_cons_of_mem _ hl)) hfew (acc ++ [l])
      rw [readQuestionLabelsFrom_byte hb, hlen]
      rw [if_neg (by omega), if_neg (by omega), if_neg (by omega), if_neg (by omega), hslice, hnext,
        wireName_cons]
      simp only [List.append_assoc, List.singleton_append, List.length_cons, List.length_append,
        Option.some.injEq, LabelsAt.mk.injEq, true_and]
      omega

/-- What the reader of a request's name has read is such a name. -/
theorem readQuestionLabelsFrom_spec {acc : List Bytes} {total : Nat} {q : LabelsAt}
    (h : readQuestionLabelsFrom buf acc pos total = some q) (htotal : total ≤ 255) :
    ∃ labels, q.labels = acc ++ labels ∧ (∀ l ∈ labels, LabelSize l) ∧
      total + (wireLabels labels).length ≤ 255 ∧ BytesAt buf pos (wireName labels) ∧
      q.stop = pos + (wireName labels).length := by
  fun_induction readQuestionLabelsFrom buf acc pos total with
  | case2 acc pos total b hb len hlen =>
      cases h
      have hz : b = 0 := UInt8.toNat_inj.1 hlen
      refine ⟨[], by simp, by simp, by simpa [wireLabels] using htotal, ?_, by simp [wireName, wireLabels]⟩
      rw [hz] at hb
      exact BytesAt.of_getElem? hb
  | case6 acc pos total b hb len hpos hmax hfit htot _ ih =>
      obtain ⟨labels, hlabels, hsize, htotal, hbuf, hstop⟩ := ih h (by omega)
      have hlen : (slice buf (pos + 1) (pos + 1 + len)).length = len := by
        rw [length_slice (by omega)]
        omega
      have hl : LabelSize (slice buf (pos + 1) (pos + 1 + len)) := by
        rw [LabelSize, hlen]
        omega
      have hfirst : UInt8.ofNat (slice buf (pos + 1) (pos + 1 + len)).length = b := by
        rw [hlen]
        exact UInt8.ofNat_toNat
      refine ⟨slice buf (pos + 1) (pos + 1 + len) :: labels, ?_, ?_, ?_, ?_, ?_⟩
      · rw [hlabels, List.append_assoc, List.singleton_append]
      · intro l hl'
        rcases List.mem_cons.1 hl' with rfl | hl'
        · exact hl
        · exact hsize l hl'
      · rw [wireLabels_cons, List.length_cons, List.length_append, hlen]
        omega
      · rw [wireName_cons, hfirst]
        have hlabel : BytesAt buf (pos + 1) (slice buf (pos + 1) (pos + 1 + len)) :=
          BytesAt.of_slice (by omega) (by omega)
        have hrest : BytesAt buf (pos + 1 + (slice buf (pos + 1) (pos + 1 + len)).length)
            (wireName labels) := by
          rwa [hlen]
        exact (BytesAt.of_getElem? hb).append (hlabel.append hrest)
      · rw [hstop, wireName_cons, List.length_cons, List.length_append, hlen]
        omega
  | _ =>
      cases h

/-- With its labels the reader finds the end it finds without them. -/
theorem readQuestionLabelsFrom_stop (buf : Bytes) (acc : List Bytes) (pos total : Nat) :
    (readQuestionLabelsFrom buf acc pos total).map LabelsAt.stop =
      readQuestionNameFrom buf pos total := by
  fun_induction readQuestionLabelsFrom buf acc pos total with
  | case1 acc pos total h =>
      rw [readQuestionNameFrom]
      split
      · rfl
      · rename_i hb
        rw [h] at hb
        cases hb
  | case2 acc pos total b hb len hlen =>
      rw [readQuestionNameFrom_byte hb, if_pos hlen]
      rfl
  | case3 acc pos total b hb len hpos hmax =>
      rw [readQuestionNameFrom_byte hb, if_neg hpos, if_pos hmax]
      rfl
  | case4 acc pos total b hb len hpos hmax hfit =>
      rw [readQuestionNameFrom_byte hb, if_neg hpos, if_neg hmax, if_pos hfit]
      rfl
  | case5 acc pos total b hb len hpos hmax hfit htot =>
      rw [readQuestionNameFrom_byte hb, if_neg hpos, if_neg hmax, if_neg hfit, if_pos htot]
      rfl
  | case6 acc pos total b hb len hpos hmax hfit htot _ ih =>
      rw [readQuestionNameFrom_byte hb, if_neg hpos, if_neg hmax, if_neg hfit, if_neg htot, ih]

/-! ## Reading a name of a reply -/

theorem readNameFrom_wire {labels : List Bytes} (hbuf : BytesAt buf pos (wireName labels))
    (hsize : ∀ l ∈ labels, LabelSize l) (acc : List Text)
    (hcount : acc.length + labels.length ≤ maxLabels) (next : Option Nat) (jumps : Nat) :
    readNameFrom buf acc pos next jumps =
      some ⟨joinDots (acc ++ labels.map utf8), next.getD (pos + (wireName labels).length)⟩ := by
  induction labels generalizing pos acc with
  | nil =>
      rw [readNameFrom, hbuf.head]
      simp [wireName, wireLabels]
  | cons l labels ih =>
      have hl := hsize l List.mem_cons_self
      obtain ⟨⟨b, hb, hlen⟩, hfit, hslice, hrest⟩ := label_at hbuf hl
      have hpos := hl.1
      have hmax := hl.2
      simp only [List.length_cons] at hcount
      have hnext := ih hrest (fun l hl => hsize l (List.mem_cons_of_mem _ hl)) (acc ++ [utf8 l])
        (by simp; omega)
      rw [readNameFrom, hb]
      simp only [hlen]
      rw [if_neg (by omega), if_neg (by omega), if_neg (by omega), if_neg (by omega),
        dif_neg (by omega), hslice, hnext, wireName_cons]
      simp only [List.append_assoc, List.singleton_append, List.map_cons, List.length_cons,
        List.length_append, Option.some.injEq, NameAt.mk.injEq, true_and]
      congr 1
      omega

theorem readName_wire {labels : List Bytes} (hbuf : BytesAt buf pos (wireName labels))
    (hsize : ∀ l ∈ labels, LabelSize l) (hcount : labels.length ≤ maxLabels) :
    readName buf pos = some ⟨joinDots (labels.map utf8), pos + (wireName labels).length⟩ :=
  readNameFrom_wire hbuf hsize [] (by simpa using hcount) none 0

/-- A pointer to such a name, here to one of the first 256 bytes, is read as the name. -/
theorem readName_pointer {labels : List Bytes} {low : UInt8} (hptr : BytesAt buf pos [0xc0, low])
    (hbuf : BytesAt buf low.toNat (wireName labels)) (hsize : ∀ l ∈ labels, LabelSize l)
    (hcount : labels.length ≤ maxLabels) :
    readName buf pos = some ⟨joinDots (labels.map utf8), pos + 2⟩ := by
  have hname := readNameFrom_wire hbuf hsize [] (by simpa using hcount) (some (pos + 2)) 1
  have hlen : (0xc0 : UInt8).toNat = 192 := rfl
  rw [readName, readNameFrom, hptr.head]
  simp only [hptr.tail.head, hlen]
  rw [if_neg (by decide), if_pos (by decide), dif_neg (by decide)]
  rw [Nat.sub_self, Nat.zero_mul, Option.getD_none, Nat.zero_add, hname]
  rfl

/-! ## Names as text -/

/-- A label of a host name: ASCII in lower case, without a dot. -/
structure IsLabel (t : Text) : Prop where
  ascii : ∀ c ∈ t, isAscii c
  lower : ∀ c ∈ t, asciiLower c = c
  noDot : '.' ∉ t
  size : 1 ≤ t.length ∧ t.length ≤ 63

namespace IsLabel

variable {t : Text}

theorem iff_check : IsLabel t ↔ (t.all fun c => isAscii c && asciiLower c = c && c ≠ '.') = true ∧
    1 ≤ t.length ∧ t.length ≤ 63 := by
  simp only [List.all_eq_true, Bool.and_eq_true, decide_eq_true_eq]
  constructor
  · intro h
    refine ⟨fun c hc => ⟨⟨h.ascii c hc, h.lower c hc⟩, ?_⟩, h.size⟩
    rintro rfl
    exact h.noDot hc
  · rintro ⟨hall, hsize⟩
    exact ⟨fun c hc => (hall c hc).1.1, fun c hc => (hall c hc).1.2,
      fun hdot => (hall '.' hdot).2 rfl, hsize⟩

instance (t : Text) : Decidable (IsLabel t) := decidable_of_iff _ iff_check.symm

theorem labelSize (h : IsLabel t) : LabelSize (asciiBytes t) := by
  rw [LabelSize, length_asciiBytes h.ascii]
  exact h.size

theorem encodeLabel (h : IsLabel t) :
    encodeLabel t = some (UInt8.ofNat (asciiBytes t).length :: asciiBytes t) := by
  have := h.labelSize.2
  rw [Wire.encodeLabel]
  exact if_neg (by omega)

end IsLabel

theorem mem_joinDots {labels : List Text} {c : Char} (h : c ∈ joinDots labels) :
    c = '.' ∨ ∃ l ∈ labels, c ∈ l := by
  induction labels with
  | nil =>
      cases h
  | cons l labels ih =>
      cases labels with
      | nil =>
          rw [joinDots, List.intercalate_singleton] at h
          exact .inr ⟨l, List.mem_cons_self, h⟩
      | cons l' labels =>
          rw [joinDots, List.intercalate_cons_cons, List.mem_append, List.mem_append] at h
          rcases h with (hl | hdot) | hrest
          · exact .inr ⟨l, List.mem_cons_self, hl⟩
          · exact .inl (List.mem_singleton.1 hdot)
          · rcases ih hrest with hdot | ⟨l'', hl'', hc⟩
            · exact .inl hdot
            · exact .inr ⟨l'', List.mem_cons_of_mem _ hl'', hc⟩

theorem map_joinDots {f : Char → Char} (hdot : f '.' = '.') (labels : List Text) :
    (joinDots labels).map f = joinDots (labels.map fun l => l.map f) := by
  induction labels with
  | nil =>
      rfl
  | cons l labels ih =>
      cases labels with
      | nil =>
          simp [joinDots]
      | cons l' labels =>
          simp only [joinDots, List.map_cons, List.intercalate_cons_cons, List.map_append] at ih ⊢
          rw [ih, List.map_nil, hdot]

/-- Splitting a name at its dots gives its labels; the root, which has none, splits into one empty
text. -/
theorem splitOn_joinDots {labels : List Text} (h : ∀ t ∈ labels, IsLabel t) :
    ((joinDots labels).splitOn '.').filter (fun p => !p.isEmpty) = labels := by
  cases hlabels : labels with
  | nil =>
      rfl
  | cons l ls =>
      rw [← hlabels, joinDots, List.splitOn_intercalate '.' (fun t ht => (h t ht).noDot)
        (by simp [hlabels]), List.filter_eq_self]
      intro t ht
      have hpos := (h t ht).size.1
      cases t with
      | nil =>
          simp at hpos
      | cons c t =>
          rfl

theorem encodeName_joinDots {labels : List Text} (h : ∀ t ∈ labels, IsLabel t) :
    encodeName (joinDots labels) = some (wireName (labels.map asciiBytes)) := by
  have hbufs : labels.mapM encodeLabel =
      some (labels.map fun t => UInt8.ofNat (asciiBytes t).length :: asciiBytes t) := by
    rw [mapM_eq_some, List.map_map]
    exact List.map_congr_left fun t ht => (h t ht).encodeLabel
  rw [encodeName, splitOn_joinDots h, hbufs]
  simp [wireName, wireLabels, List.flatMap, List.map_map, Function.comp_def]

theorem joinDots_ascii {labels : List Text} (h : ∀ t ∈ labels, ∀ c ∈ t, isAscii c) :
    ∀ c ∈ joinDots labels, isAscii c := by
  intro c hc
  rcases mem_joinDots hc with rfl | ⟨t, ht, hct⟩
  · rfl
  · exact h t ht c hct

theorem lowerCase_joinDots (host : UnicodeHost) {labels : List Text}
    (h : ∀ t ∈ labels, ∀ c ∈ t, isAscii c) :
    lowerCase host (joinDots labels) = joinDots (labels.map fun t => t.map asciiLower) := by
  rw [lowerCase, if_pos (List.all_eq_true.2 (joinDots_ascii h))]
  exact map_joinDots rfl labels

/-- A written name is read back in lower case as it was. -/
theorem utf8_labels {labels : List Text} (h : ∀ t ∈ labels, IsLabel t) :
    (labels.map asciiBytes).map utf8 = labels := by
  rw [List.map_map]
  conv_rhs => rw [← List.map_id labels]
  exact List.map_congr_left fun t ht => utf8_asciiBytes (h t ht).ascii

theorem lowerCase_labels (host : UnicodeHost) {labels : List Text} (h : ∀ t ∈ labels, IsLabel t) :
    lowerCase host (joinDots labels) = joinDots labels := by
  rw [lowerCase_joinDots host fun t ht => (h t ht).ascii]
  congr 1
  conv_rhs => rw [← List.map_id labels]
  apply List.map_congr_left
  intro t ht
  conv_rhs => rw [id, ← List.map_id t]
  exact List.map_congr_left fun c hc => (h t ht).lower c hc

/-! ## The labels of a request -/

/-- The characters a host name may hold are ASCII, and stay what they are once in lower case. -/
theorem labelChar_spec {b : UInt8} {c : Char} (h : labelChar b = some c) :
    b.toNat < 0x80 ∧ asciiLower (Char.ofNat b.toNat) = c ∧ isAscii c ∧ asciiLower c = c ∧ c ≠ '.' ∧
      labelChar c.val.toUInt8 = some c := by
  -- one check for each byte
  have hall : ∀ n < 256, (labelChar (UInt8.ofNat n)).all fun c =>
      decide (n < 0x80 ∧ asciiLower (Char.ofNat n) = c ∧ isAscii c ∧ asciiLower c = c ∧ c ≠ '.' ∧
        labelChar c.val.toUInt8 = some c) := by
    decide +kernel
  have hb := hall b.toNat b.toNat_lt
  rw [UInt8.ofNat_toNat, h] at hb
  exact of_decide_eq_true hb

theorem labelText_spec {l : Bytes} {t : Text} (h : labelText l = some t) (hsize : LabelSize l) :
    IsLabel t ∧ t.length = l.length ∧ (∀ c ∈ utf8 l, isAscii c) ∧ (utf8 l).map asciiLower = t ∧
      labelText (asciiBytes t) = some t := by
  rw [labelText, mapM_eq_some] at h
  have hlen : t.length = l.length := by
    simpa using (congrArg List.length h).symm
  have hbyte : ∀ b ∈ l, ∃ c ∈ t, labelChar b = some c := by
    intro b hb
    have hmem : labelChar b ∈ t.map some := h ▸ List.mem_map_of_mem hb
    obtain ⟨c, hc, heq⟩ := List.mem_map.1 hmem
    exact ⟨c, hc, heq.symm⟩
  have hchar : ∀ c ∈ t, ∃ b, labelChar b = some c := by
    intro c hc
    have hmem : some c ∈ l.map labelChar := h ▸ List.mem_map_of_mem hc
    obtain ⟨b, -, heq⟩ := List.mem_map.1 hmem
    exact ⟨b, heq⟩
  have hsmall : ∀ b ∈ l, b.toNat < 0x80 := by
    intro b hb
    obtain ⟨c, -, hc⟩ := hbyte b hb
    exact (labelChar_spec hc).1
  have hascii : ∀ c ∈ t, isAscii c := by
    intro c hc
    obtain ⟨b, hb⟩ := hchar c hc
    exact (labelChar_spec hb).2.2.1
  have hutf8 := utf8_of_ascii hsmall
  refine ⟨⟨hascii, ?_, ?_, by rw [hlen]; exact hsize⟩, hlen, ?_, ?_, ?_⟩
  · intro c hc
    obtain ⟨b, hb⟩ := hchar c hc
    exact (labelChar_spec hb).2.2.2.1
  · intro hdot
    obtain ⟨b, hb⟩ := hchar '.' hdot
    exact (labelChar_spec hb).2.2.2.2.1 rfl
  · rw [hutf8]
    intro c hc
    obtain ⟨b, hb, rfl⟩ := List.mem_map.1 hc
    have := hsmall b hb
    have hvalid : b.toNat.isValidChar := .inl (by omega)
    have hval : (Char.ofNat b.toNat).toNat = b.toNat := by
      rw [Char.ofNat, dif_pos hvalid]
      rfl
    simpa [isAscii, hval] using this
  · apply List.map_injective_iff.2 (Option.some_injective Char)
    rw [← h, hutf8, latin1, List.map_map, List.map_map]
    apply List.map_congr_left
    intro b hb
    obtain ⟨c, -, hc⟩ := hbyte b hb
    rw [hc]
    exact congrArg some (labelChar_spec hc).2.1
  · rw [labelText, mapM_eq_some, asciiBytes, codeUnits_of_ascii hascii, List.map_map, List.map_map]
    apply List.map_congr_left
    intro c hc
    obtain ⟨b, hb⟩ := hchar c hc
    exact (labelChar_spec hb).2.2.2.2.2

/-- The labels of a request's name, in lower case, are labels of a host name, as many and as
long. -/
theorem labelTexts_spec {labels : List Bytes} {texts : List Text}
    (h : labels.mapM labelText = some texts) (hsize : ∀ l ∈ labels, LabelSize l) :
    (∀ t ∈ texts, IsLabel t) ∧
      (wireLabels (texts.map asciiBytes)).length = (wireLabels labels).length ∧
      (texts.map asciiBytes).mapM labelText = some texts ∧
      ∀ host, lowerCase host (joinDots (labels.map utf8)) = joinDots texts := by
  rw [mapM_eq_some] at h
  have hall : (∀ t ∈ texts, IsLabel t) ∧
      (wireLabels (texts.map asciiBytes)).length = (wireLabels labels).length ∧
      (texts.map asciiBytes).map labelText = texts.map some ∧
      (∀ l ∈ labels.map utf8, ∀ c ∈ l, isAscii c) ∧
      (labels.map utf8).map (fun t => t.map asciiLower) = texts := by
    induction labels generalizing texts with
    | nil =>
        obtain rfl : texts = [] := by simpa using h.symm
        simp
    | cons l labels ih =>
        cases texts with
        | nil =>
            cases h
        | cons t texts =>
            obtain ⟨hhead, hrest⟩ := List.cons.inj h
            have hl := hsize l List.mem_cons_self
            obtain ⟨hlabel, hlen, hascii, hlower, hagain⟩ := labelText_spec hhead hl
            obtain ⟨hlabels, hlens, hagains, hasciis, hlowers⟩ :=
              ih hrest fun l hl => hsize l (List.mem_cons_of_mem _ hl)
            refine ⟨?_, ?_, ?_, ?_, ?_⟩
            · intro t' ht'
              rcases List.mem_cons.1 ht' with rfl | ht'
              · exact hlabel
              · exact hlabels t' ht'
            · simp only [List.map_cons, wireLabels_cons, List.length_cons, List.length_append, hlens,
                length_asciiBytes hlabel.ascii, hlen]
            · rw [List.map_cons, List.map_cons, hagain, hagains, List.map_cons]
            · intro t' ht'
              rcases List.mem_cons.1 ht' with rfl | ht'
              · exact hascii
              · exact hasciis t' ht'
            · rw [List.map_cons, List.map_cons, hlower, hlowers]
  refine ⟨hall.1, hall.2.1, mapM_eq_some.2 hall.2.2.1, fun host => ?_⟩
  rw [lowerCase_joinDots host hall.2.2.2.1, hall.2.2.2.2]

end Wire

end Dns
end GateControl
