import GateControl.Print.Ipp

/-!
# IppRoundTrip — a message is decoded to what was encoded

The decoder puts the values of an attribute together again: the first one sets the name, and each
that follows without a name is filed under the last one.
-/

namespace GateControl
namespace Print
namespace Ipp

open Library

/-! ## What can be encoded -/

/-- The tags whose values are written and read as text. -/
def TextLike (tag : UInt8) : Prop :=
  0x10 ≤ tag ∧ tag ∉ [Tag.unsupported, Tag.unknown, Tag.noValue, Tag.integer, Tag.boolean, Tag.enum,
    Tag.dateTime, Tag.resolution, Tag.rangeOfInteger, Tag.begCollection, Tag.textWithLanguage,
    Tag.nameWithLanguage, Tag.endCollection]

instance (tag : UInt8) : Decidable (TextLike tag) := inferInstanceAs (Decidable (_ ∧ _))

/-- A value that fits its tag. -/
def Fits (tag : UInt8) : Value → Prop
  | .int n => (tag = Tag.integer ∨ tag = Tag.enum) ∧ -2147483648 ≤ n ∧ n < 2147483648
  | .bool _ => tag = Tag.boolean
  | .text s => TextLike tag ∧ (utf8Bytes s).length ≤ 65535
  | _ => False

instance (tag : UInt8) (v : Value) : Decidable (Fits tag v) := by
  cases v <;> unfold Fits <;> infer_instance

def isNameChar (c : Char) : Bool :=
  ('a' ≤ c && c ≤ 'z') || ('0' ≤ c && c ≤ '9') || c == '-'

/-- An attribute with a plain name and values that fit. -/
structure Attr.Plain (a : Attr) : Prop where
  name : ∀ c ∈ a.name, isNameChar c
  length : 1 ≤ a.name.length ∧ a.name.length ≤ 255
  values : a.values ≠ []
  fits : ∀ v ∈ a.values, Fits a.tag v

/-- A group of the protocol with attributes of distinct names. -/
structure PlainGroup (g : UInt8 × List Attr) : Prop where
  tag : g.1 ∈ [1, 2, 4, 5]
  attrs : g.2 ≠ []
  distinct : (g.2.map Attr.name).Nodup
  plain : ∀ a ∈ g.2, a.Plain

theorem length_utf8Bytes_le (s : Text) :
    s.length ≤ (utf8Bytes s).length ∧ (utf8Bytes s).length ≤ 4 * s.length := by
  induction s with
  | nil =>
      simp [utf8Bytes]
  | cons c s ih =>
      have hpos := Char.utf8Size_pos c
      have hmax := Char.utf8Size_le_four c
      simp only [utf8Bytes, List.flatMap_cons, List.length_append, List.length_cons,
        String.length_utf8EncodeChar] at ih ⊢
      omega

namespace Attr.Plain

variable {a : Attr} (h : a.Plain)

include h

theorem ne_protoName : a.name ≠ protoName := by
  intro heq
  have hmem : '_' ∈ a.name := by
    rw [heq]
    decide
  exact absurd (h.name _ hmem) (by decide)

theorem length_utf8 : (utf8Bytes a.name).length ≠ 0 ∧ (utf8Bytes a.name).length < 65536 := by
  have hbytes := length_utf8Bytes_le a.name
  have hlen := h.length
  omega

end Attr.Plain

/-! ## One field -/

variable {tag : UInt8} {name : Text} {v : Value}

def fieldBytes (tag : UInt8) (name : Text) (v : Bytes) : Bytes :=
  tag :: (uint16BE (utf8Bytes name).length ++ utf8Bytes name ++ (uint16BE v.length ++ v))

theorem field_eq {v : Bytes} (hname : (utf8Bytes name).length < 65536) (hv : v.length < 65536) :
    field tag name v = some (fieldBytes tag name v) :=
  if_pos ⟨hname, hv⟩

theorem readValue_of_textLike (h : TextLike tag) (raw : Bytes) :
    readValue tag raw = .text (utf8 raw) := by
  have hnot := h.2
  simp only [List.mem_cons, List.not_mem_nil, or_false, not_or] at hnot
  simp only [readValue, hnot, or_self, if_false]

/-- A value is written into a field from which it is read back. -/
theorem encodeValue_spec (h : Fits tag v) (name : Text) (hname : (utf8Bytes name).length < 65536) :
    ∃ raw : Bytes, raw.length < 65536 ∧ encodeValue tag name v = some (fieldBytes tag name raw) ∧
      readValue tag raw = v := by
  cases v with
  | int n =>
      obtain ⟨htag, hlo, hhi⟩ := h
      have hread : readInt32BE (int32BE n) 0 = some n :=
        (BytesAt.whole (int32BE n)).readInt32BE hlo hhi
      refine ⟨int32BE n, by rw [length_int32BE]; omega, ?_, ?_⟩
      · rw [encodeValue, if_pos htag, int, if_pos ⟨hlo, hhi⟩, field_eq hname (by simp)]
      · unfold readValue
        rw [if_pos htag, if_pos (length_int32BE n), hread]
        rfl
  | bool b =>
      obtain rfl : tag = Tag.boolean := h
      refine ⟨[if b then 1 else 0], by simp, ?_, ?_⟩
      · rw [encodeValue, if_pos rfl, bool, field_eq hname (by simp)]
      · cases b <;> rfl
  | text s =>
      obtain ⟨htag, hlen⟩ := h
      have hnot := htag.2
      simp only [List.mem_cons, List.not_mem_nil, or_false, not_or] at hnot
      refine ⟨utf8Bytes s, by omega, ?_, ?_⟩
      · rw [encodeValue, if_neg (by simp [hnot]), str, field_eq hname (by omega)]
      · rw [readValue_of_textLike htag, utf8_utf8Bytes]
  | null => exact absurd h id
  | range => exact absurd h id
  | resolution => exact absurd h id
  | collection => exact absurd h id

/-- The tags of values are no tags of groups, and none of them opens or closes a collection. -/
theorem tag_of_fits (h : Fits tag v) :
    ¬ tag < 0x10 ∧ tag ≠ Tag.begCollection ∧ tag ≠ Tag.endCollection := by
  cases v with
  | int n =>
      rcases h.1 with rfl | rfl <;> decide
  | bool b =>
      obtain rfl : tag = Tag.boolean := h
      decide
  | text s =>
      have hnot := h.1.2
      simp only [List.mem_cons, List.not_mem_nil, or_false, not_or] at hnot
      exact ⟨UInt8.not_lt.2 h.1.1, by grind, by tauto⟩
  | null => exact absurd h id
  | range => exact absurd h id
  | resolution => exact absurd h id
  | collection => exact absurd h id

section Steps

variable {buf : Bytes} {o : Nat} {s : State}

theorem readCounted_eq {bs : Bytes} (hat : BytesAt buf o (uint16BE bs.length ++ bs))
    (hlen : bs.length < 65536) : readCounted buf o = .ok (bs, o + 2 + bs.length) := by
  have hbody : BytesAt buf (o + 2) bs := hat.right
  have hle := hbody.length_le
  rw [readCounted, hat.left.readUInt16BE rfl hlen]
  simp only
  rw [if_neg (by omega), hbody.slice_eq]

theorem readItem_field {raw : Bytes} (htag : ¬ tag < 0x10)
    (hat : BytesAt buf o (fieldBytes tag name raw)) (hname : (utf8Bytes name).length < 65536)
    (hraw : raw.length < 65536) :
    readItem buf o tag = .ok (.attr tag (utf8Bytes name).length name raw,
      o + (fieldBytes tag name raw).length) := by
  have hfirst := readCounted_eq hat.tail.left hname
  have hsecond : readCounted buf (o + 1 + 2 + (utf8Bytes name).length) =
      .ok (raw, o + 1 + 2 + (utf8Bytes name).length + 2 + raw.length) := by
    refine readCounted_eq ?_ hraw
    have hright := hat.tail.right
    rwa [List.length_append, length_uint16BE, ← Nat.add_assoc] at hright
  have hend : o + 1 + 2 + (utf8Bytes name).length + 2 + raw.length =
      o + (fieldBytes tag name raw).length := by
    simp only [fieldBytes, List.length_cons, List.length_append, length_uint16BE]
    omega
  rw [readItem, if_neg htag]
  simp only [hfirst, hsecond, bind, Except.bind, pure, Except.pure, utf8_utf8Bytes, hend]

/-- One turn of the loop. -/
theorem decodeFrom_item {item : Item} {o' : Nat} {s' : State} (hbyte : buf[o]? = some tag)
    (htag : tag ≠ groupEnd) (hitem : readItem buf o tag = .ok (item, o'))
    (hreceive : s.receive item = .ok s') : decodeFrom buf o s = decodeFrom buf o' s' := by
  obtain ⟨hlt, rfl⟩ := List.getElem?_eq_some_iff.1 hbyte
  rw [decodeFrom, dif_pos hlt, if_neg htag]
  split
  · next e he =>
      rw [hitem] at he
      cases he
  · next item' o'' he =>
      rw [hitem] at he
      obtain ⟨rfl, rfl⟩ := Prod.mk.inj (Except.ok.inj he)
      rw [hreceive]

theorem decodeFrom_end (hbyte : buf[o]? = some groupEnd) :
    decodeFrom buf o s = .ok ⟨s, some (slice buf (o + 1) buf.length)⟩ := by
  obtain ⟨hlt, heq⟩ := List.getElem?_eq_some_iff.1 hbyte
  rw [decodeFrom, dif_pos hlt, if_pos heq]

end Steps

/-! ## One attribute -/

/-- The entries that attributes make one after the other. -/
def fileAttrs (o : PlainObject Value) (as : List Attr) : PlainObject Value :=
  as.foldl (fun o a => o.assign a.name a.values) o

section Attributes

variable {buf : Bytes} {s : State} {g : Group}

/-- The value that stands behind the name of the attribute. -/
theorem receive_named (name : Text) {raw : Bytes} (hfits : Fits tag v) (hv : readValue tag raw = v)
    {nl : Nat} (hnl : nl ≠ 0) (hgroup : s.group = some g) (hstack : s.stack = []) :
    s.receive (.attr tag nl name raw) =
      .ok { s with last := some name, group := some { g with attrs := g.attrs.assign name [v] } } := by
  obtain ⟨-, hbeg, hend⟩ := tag_of_fits hfits
  simp only [State.receive, hgroup, if_neg hbeg, if_neg hend, hstack, State.groupValue, if_pos hnl, hv]

/-- A value without a name goes to the last name. -/
theorem receive_unnamed {raw : Bytes} {vs : List Value} (hfits : Fits tag v)
    (hv : readValue tag raw = v) (hgroup : s.group = some g) (hstack : s.stack = [])
    (hlast : s.last = some name) (hname : name ≠ protoName) (hget : g.attrs.own.get name = some vs) :
    s.receive (.attr tag 0 [] raw) =
      .ok { s with group := some { g with attrs := g.attrs.assign name (vs ++ [v]) } } := by
  obtain ⟨-, hbeg, hend⟩ := tag_of_fits hfits
  have hfound : g.attrs.get Value.truthy name = .array vs := by
    rw [PlainObject.get, if_neg hname, hget]
  simp only [State.receive, hgroup, if_neg hbeg, if_neg hend, hstack, State.groupValue, hlast, hv,
    State.setAttrs, PlainObject.push, hfound, ne_eq, not_true, if_false]

theorem assign_assign (o : PlainObject Value) (hname : name ≠ protoName) (vs ws : List Value) :
    (o.assign name vs).assign name ws = o.assign name ws := by
  simp only [PlainObject.assign, if_neg hname, OrderedMap.set_set]

theorem get_assign (o : PlainObject Value) (hname : name ≠ protoName) (vs : List Value) (k : Text) :
    (o.assign name vs).own.get k = if k = name then some vs else o.own.get k := by
  simp only [PlainObject.assign, if_neg hname, OrderedMap.get_set]

/-- The values behind the first. -/
theorem decodeFrom_rest (hname : name ≠ protoName) {vs : List Value} (hfits : ∀ v ∈ vs, Fits tag v)
    {parts : List Bytes} (hparts : vs.mapM (encodeValue tag []) = some parts) {o : Nat}
    (hat : BytesAt buf o parts.flatten) {ws : List Value} (hstack : s.stack = [])
    (hlast : s.last = some name) (o₀ : PlainObject Value)
    (hgroup : s.group = some { g with attrs := o₀.assign name ws }) :
    decodeFrom buf o s = decodeFrom buf (o + parts.flatten.length)
      { s with group := some { g with attrs := o₀.assign name (ws ++ vs) } } := by
  induction vs generalizing parts o s ws with
  | nil =>
      obtain rfl : parts = [] := by simpa using hparts.symm
      rw [List.append_nil, ← hgroup]
      rfl
  | cons v vs ih =>
      rw [mapM_eq_some, List.map_cons] at hparts
      cases parts with
      | nil =>
          cases hparts
      | cons part parts =>
          obtain ⟨hpart, hrest⟩ := List.cons.inj hparts
          obtain ⟨raw, hraw, hencode, hv⟩ := encodeValue_spec (hfits v List.mem_cons_self)
            [] (by simp [utf8Bytes])
          obtain rfl : fieldBytes tag [] raw = part := Option.some.inj (hencode.symm.trans hpart)
          obtain ⟨htag, -, -⟩ := tag_of_fits (hfits v List.mem_cons_self)
          rw [List.flatten_cons] at hat
          have hitem := readItem_field htag hat.left (by simp [utf8Bytes]) hraw
          have hget : (o₀.assign name ws).own.get name = some ws := by
            rw [get_assign o₀ hname, if_pos rfl]
          have hreceive := receive_unnamed (hfits v List.mem_cons_self) hv hgroup hstack hlast hname
            hget
          simp only [assign_assign o₀ hname] at hreceive
          have hne : tag ≠ groupEnd := by
            rintro rfl
            exact htag (by decide)
          have hnext := ih (s := { s with
              group := some { g with attrs := o₀.assign name (ws ++ [v]) } })
            (fun v hv => hfits v (List.mem_cons_of_mem _ hv)) (mapM_eq_some.2 hrest) hat.right
            hstack hlast rfl
          rw [decodeFrom_item hat.left.head hne hitem hreceive, hnext, List.flatten_cons,
            List.length_append, Nat.add_assoc, List.append_assoc, List.singleton_append]

/-- An attribute is filed under its name. -/
theorem decodeFrom_attr {a : Attr} (h : a.Plain) {bytes : Bytes} (hbytes : encodeAttr a = some bytes)
    {o : Nat} (hat : BytesAt buf o bytes) (hstack : s.stack = []) (hgroup : s.group = some g) :
    decodeFrom buf o s = decodeFrom buf (o + bytes.length)
      { s with
        last := some a.name, group := some { g with attrs := g.attrs.assign a.name a.values } } := by
  obtain ⟨tag, name, values⟩ := a
  cases values with
  | nil =>
      exact absurd rfl h.values
  | cons v vs =>
      have hfits : Fits tag v := h.fits v List.mem_cons_self
      obtain ⟨hnl, hname⟩ := h.length_utf8
      obtain ⟨raw, hraw, hencode, hv⟩ := encodeValue_spec hfits name hname
      obtain ⟨htag, -, -⟩ := tag_of_fits hfits
      simp only [encodeAttr, Option.bind_eq_bind, Option.bind_eq_some_iff, Option.pure_def,
        Option.some.injEq] at hbytes
      obtain ⟨first, hfirst, parts, hparts, rfl⟩ := hbytes
      obtain rfl : fieldBytes tag name raw = first := Option.some.inj (hencode.symm.trans hfirst)
      have hitem := readItem_field htag hat.left hname hraw
      have hreceive := receive_named name hfits hv hnl hgroup hstack
      have hne : tag ≠ groupEnd := by
        rintro rfl
        exact htag (by decide)
      have hrest := decodeFrom_rest (g := g) (s := { s with
          last := some name, group := some { g with attrs := g.attrs.assign name [v] } })
        h.ne_protoName (fun v hv => h.fits v (List.mem_cons_of_mem _ hv)) hparts hat.right hstack rfl
        g.attrs rfl
      rw [decodeFrom_item hat.left.head hne hitem hreceive, hrest, List.length_append, Nat.add_assoc]
      rfl

/-- All attributes of a group. -/
theorem decodeFrom_attrs {as : List Attr} (h : ∀ a ∈ as, a.Plain) {parts : List Bytes}
    (hparts : as.mapM encodeAttr = some parts) {o : Nat} (hat : BytesAt buf o parts.flatten)
    (hstack : s.stack = []) (hgroup : s.group = some g) :
    ∃ last, decodeFrom buf o s = decodeFrom buf (o + parts.flatten.length)
      { s with last := last, group := some { g with attrs := fileAttrs g.attrs as } } := by
  induction as generalizing parts o s g with
  | nil =>
      obtain rfl : parts = [] := by simpa using hparts.symm
      refine ⟨s.last, ?_⟩
      rw [fileAttrs, List.foldl_nil, ← hgroup]
      rfl
  | cons a as ih =>
      rw [mapM_eq_some, List.map_cons] at hparts
      cases parts with
      | nil =>
          cases hparts
      | cons part parts =>
          obtain ⟨hpart, hrest⟩ := List.cons.inj hparts
          rw [List.flatten_cons] at hat
          have hfirst := decodeFrom_attr (h a List.mem_cons_self) hpart hat.left hstack hgroup
          obtain ⟨last, hnext⟩ := ih
            (s := { s with
              last := some a.name, group := some { g with attrs := g.attrs.assign a.name a.values } })
            (g := { g with attrs := g.attrs.assign a.name a.values })
            (fun a ha => h a (List.mem_cons_of_mem _ ha)) (mapM_eq_some.2 hrest) hat.right hstack rfl
          refine ⟨last, ?_⟩
          rw [hfirst, hnext, List.flatten_cons, List.length_append, Nat.add_assoc]
          rfl

end Attributes

/-! ## Groups -/

/-- What a group is decoded to. -/
def fileGroup (g : UInt8 × List Attr) : Group := ⟨g.1, fileAttrs PlainObject.empty g.2⟩

section Groups

variable {buf : Bytes} {s : State}

theorem decodeFrom_group {g : UInt8 × List Attr} (h : PlainGroup g) {bytes : Bytes}
    (hbytes : encodeGroup g = some bytes) {o : Nat} (hat : BytesAt buf o bytes)
    (hstack : s.stack = []) :
    ∃ last, decodeFrom buf o s = decodeFrom buf (o + bytes.length)
      { s with done := s.groups, last := last, group := some (fileGroup g) } := by
  rw [encodeGroup, if_neg h.attrs] at hbytes
  simp only [Option.bind_eq_bind, Option.bind_eq_some_iff, Option.pure_def,
    Option.some.injEq] at hbytes
  obtain ⟨parts, hparts, rfl⟩ := hbytes
  have hsmall : g.1 < 0x10 ∧ g.1 ≠ groupEnd := by
    have htag := h.tag
    simp only [List.mem_cons, List.not_mem_nil, or_false] at htag
    rcases htag with htag | htag | htag | htag <;> rw [htag] <;> decide
  have hitem : readItem buf o g.1 = .ok (.group g.1, o + 1) := if_pos hsmall.1
  obtain ⟨last, hattrs⟩ := decodeFrom_attrs
    (s := { s with done := s.groups, group := some ⟨g.1, PlainObject.empty⟩, last := none })
    (g := ⟨g.1, PlainObject.empty⟩) h.plain hparts hat.tail hstack rfl
  refine ⟨last, ?_⟩
  rw [decodeFrom_item (s := s) hat.head hsmall.2 hitem rfl, hattrs, List.length_cons,
    Nat.add_assoc, Nat.add_comm 1]
  rfl

/-- The groups are read one after the other, and no collection is opened. -/
theorem decodeFrom_groups {gs : List (UInt8 × List Attr)} (h : ∀ g ∈ gs, PlainGroup g)
    {parts : List Bytes} (hparts : gs.mapM encodeGroup = some parts) {o : Nat}
    (hat : BytesAt buf o parts.flatten) (hstack : s.stack = []) :
    ∃ s', decodeFrom buf o s = decodeFrom buf (o + parts.flatten.length) s' ∧
      s'.groups = s.groups ++ gs.map fileGroup := by
  induction gs generalizing parts o s with
  | nil =>
      obtain rfl : parts = [] := by simpa using hparts.symm
      exact ⟨s, rfl, (List.append_nil _).symm⟩
  | cons g gs ih =>
      rw [mapM_eq_some, List.map_cons] at hparts
      cases parts with
      | nil =>
          cases hparts
      | cons part parts =>
          obtain ⟨hpart, hrest⟩ := List.cons.inj hparts
          rw [List.flatten_cons] at hat
          obtain ⟨last, hfirst⟩ := decodeFrom_group (h g List.mem_cons_self) hpart hat.left hstack
          obtain ⟨s', hnext, hgroups⟩ := ih
            (s := { s with done := s.groups, last := last, group := some (fileGroup g) })
            (fun g hg => h g (List.mem_cons_of_mem _ hg)) (mapM_eq_some.2 hrest) hat.right hstack
          refine ⟨s', ?_, ?_⟩
          · rw [hfirst, hnext, List.flatten_cons, List.length_append, Nat.add_assoc]
          · rw [hgroups, State.groups, List.map_cons]
            simp

/-- Each name has the values of its attribute, and there are no other names. -/
theorem get_fileAttrs {as : List Attr} (hplain : ∀ a ∈ as, a.Plain)
    (hdistinct : (as.map Attr.name).Nodup) (o : PlainObject Value) (k : Text) :
    (fileAttrs o as).own.get k =
      match as.find? (fun a => a.name = k) with
      | some a => some a.values
      | none => o.own.get k := by
  induction as generalizing o with
  | nil =>
      rfl
  | cons a as ih =>
      have hne := (hplain a List.mem_cons_self).ne_protoName
      rw [List.map_cons, List.nodup_cons] at hdistinct
      rw [fileAttrs, List.foldl_cons, ← fileAttrs,
        ih (fun a ha => hplain a (List.mem_cons_of_mem _ ha)) hdistinct.2, get_assign o hne,
        List.find?_cons]
      by_cases hk : a.name = k
      · -- no other attribute has this name
        have hnone : as.find? (fun a => a.name = k) = none := by
          rw [List.find?_eq_none]
          intro b hb heq
          refine hdistinct.1 (List.mem_map.2 ⟨b, hb, ?_⟩)
          rw [hk]
          simpa using heq
        rw [hnone, if_pos hk.symm, decide_eq_true hk]
      · rw [if_neg (Ne.symm hk), decide_eq_false hk]

theorem proto_fileAttrs {as : List Attr} (hplain : ∀ a ∈ as, a.Plain) (o : PlainObject Value) :
    (fileAttrs o as).proto = o.proto := by
  induction as generalizing o with
  | nil =>
      rfl
  | cons a as ih =>
      have hne := (hplain a List.mem_cons_self).ne_protoName
      rw [fileAttrs, List.foldl_cons, ← fileAttrs,
        ih (fun a ha => hplain a (List.mem_cons_of_mem _ ha)), PlainObject.assign, if_neg hne]

theorem exists_encodeAttr {a : Attr} (h : a.Plain) : ∃ bytes, encodeAttr a = some bytes := by
  obtain ⟨tag, name, values⟩ := a
  cases values with
  | nil =>
      exact ⟨[], rfl⟩
  | cons v vs =>
      obtain ⟨raw, -, hfirst, -⟩ := encodeValue_spec (h.fits v List.mem_cons_self) name h.length_utf8.2
      obtain ⟨parts, hparts⟩ := exists_mapM (f := encodeValue tag []) fun v hv => by
        obtain ⟨raw, -, hencode, -⟩ := encodeValue_spec (h.fits v (List.mem_cons_of_mem _ hv))
          [] (by simp [utf8Bytes])
        exact ⟨_, hencode⟩
      refine ⟨fieldBytes tag name raw ++ parts.flatten, ?_⟩
      simp only [encodeAttr, hfirst, hparts, Option.bind_eq_bind, Option.bind_some, Option.pure_def]

theorem exists_encodeGroup {g : UInt8 × List Attr} (h : PlainGroup g) :
    ∃ bytes, encodeGroup g = some bytes := by
  obtain ⟨parts, hparts⟩ := exists_mapM fun a ha => exists_encodeAttr (h.plain a ha)
  exact ⟨g.1 :: parts.flatten, by
    rw [encodeGroup, if_neg h.attrs]
    simp only [hparts, Option.bind_eq_bind, Option.bind_some, Option.pure_def]⟩

end Groups

/-- A message is decoded to its code, its request id and its groups, and nothing is behind it. -/
theorem decodeResponse_encodeMessage (code requestId : Nat) (groups : List (UInt8 × List Attr))
    (hcode : code < 65536) (hid : requestId < 4294967296) (hgroups : ∀ g ∈ groups, PlainGroup g) :
    ∃ bytes res, encodeMessage code requestId groups = some bytes ∧
      decodeResponse bytes = .ok res ∧ res.status = code ∧ res.requestId = requestId ∧
      res.data = some [] ∧
      List.Forall₂ (fun g g' => g'.tag = g.1 ∧ g'.attrs.proto = none ∧
        ∀ name, g'.attrs.own.get name = (g.2.find? (fun a => a.name = name)).map Attr.values)
        groups res.groups := by
  obtain ⟨parts, hparts⟩ := exists_mapM fun g hg => exists_encodeGroup (hgroups g hg)
  have hmod : requestId % 4294967296 = requestId := Nat.mod_eq_of_lt hid
  generalize hbuf : [2, 0] ++ uint16BE code ++ uint32BE requestId ++ parts.flatten ++ [groupEnd] = buf
  have hencode : encodeMessage code requestId groups = some buf := by
    rw [encodeMessage, if_pos hcode, hparts, Option.bind_eq_bind, Option.bind_some, hmod, hbuf]
    rfl
  -- where the parts of the message are
  have hat : BytesAt buf 0
      ([2, 0] ++ uint16BE code ++ uint32BE requestId ++ parts.flatten ++ [groupEnd]) :=
    hbuf ▸ BytesAt.whole buf
  have hstatus : readUInt16BE buf 2 = some code := hat.left.left.left.right.readUInt16BE rfl hcode
  have hrequest : readUInt32BE buf 4 = some requestId := hat.left.left.right.readUInt32BE hid
  have hmajor : buf[0]? = some 2 := hat.left.left.left.left.head
  have hminor : buf[1]? = some 0 := hat.left.left.left.left.tail.head
  have hbody : BytesAt buf 8 parts.flatten := hat.left.right
  have hend : buf[8 + parts.flatten.length]? = some groupEnd := by
    have hlast := hat.right.head
    rwa [List.length_append, Nat.zero_add] at hlast
  have hlen : 8 < buf.length := by
    have hle := (List.getElem?_eq_some_iff.1 hend).1
    omega
  have hdata : slice buf (8 + parts.flatten.length + 1) buf.length = [] := by
    have hle := hat.length_le
    simp only [List.length_append, List.length_cons, List.length_nil, length_uint16BE,
      length_uint32BE] at hle
    rw [slice, List.take_length, List.drop_eq_nil_of_le]
    rw [← hbuf]
    simp
    omega
  obtain ⟨s, hdecode, hs⟩ := decodeFrom_groups (s := State.start) hgroups hparts hbody rfl
  rw [decodeFrom_end hend, hdata] at hdecode
  refine ⟨buf, ⟨toString (2 : UInt8).toNat ++ "." ++ toString (0 : UInt8).toNat, code, requestId,
    s.groups, s.heap, some []⟩, hencode, ?_, rfl, rfl, rfl, ?_⟩
  · rw [decodeResponse, hmajor, hminor, hstatus, hrequest, List.getElem?_eq_getElem hlen]
    simp only [hdecode, bind, Except.bind, pure, Except.pure]
  · have hstart : State.start.groups = [] := rfl
    simp only [hs, hstart, List.nil_append]
    rw [List.forall₂_map_right_iff, List.forall₂_same]
    intro g hg
    refine ⟨rfl, ?_, ?_⟩
    · exact proto_fileAttrs (hgroups g hg).plain PlainObject.empty
    · intro name
      rw [fileGroup, get_fileAttrs (hgroups g hg).plain (hgroups g hg).distinct]
      cases g.2.find? (fun a => a.name = name) <;> rfl

/-- A request with two values under one name. -/
def sampleGroups : List (UInt8 × List Attr) :=
  [(1, [⟨0x47, "attributes-charset".toList, [.text "utf-8".toList]⟩,
    ⟨Tag.integer, "job-id".toList, [.int 5, .int (-1)]⟩])]

theorem decodeResponse_encodeMessage_sampleGroups :
    ∃ bytes res, encodeMessage 9 1 sampleGroups = some bytes ∧ decodeResponse bytes = .ok res ∧
      res.status = 9 ∧ res.requestId = 1 ∧ res.data = some [] := by
  obtain ⟨bytes, res, hencode, hdecode, hstatus, hid, hdata, -⟩ :=
    decodeResponse_encodeMessage 9 1 sampleGroups (by decide) (by decide) (by
      intro g hg
      obtain rfl : g = _ := List.mem_singleton.1 hg
      refine ⟨by decide, by simp, by decide, ?_⟩
      intro a ha
      rcases List.mem_cons.1 ha with rfl | ha
      · exact ⟨List.all_eq_true.1 (by decide), by decide, by simp, by decide⟩
      · obtain rfl : a = _ := List.mem_singleton.1 ha
        exact ⟨List.all_eq_true.1 (by decide), by decide, by simp, by decide⟩)
  exact ⟨bytes, res, hencode, hdecode, hstatus, hid, hdata⟩

end Ipp
end Print
end GateControl
