/-
Trees written as JSON and read back.

* `Json.induct` — induction over JSON values and those inside them;
* `Schema.decode?_encode` — every tree is read back from what was written for
  it;
* `Schema.accepts_encode` — what is read is accepted, and written again in its
  canonical form;
* `Accepts.decode?` — whatever is accepted is read;
* `TreeType.codec_roundTrip` — all of this, for each type of tree.

Design notes: the inductions are on JSON values, for all types at once.  A type
enters only through its shape.
-/
import GraphQL.Proofs.Json.Shaped

namespace GraphQL

open Codec Json

/-! ### JSON values -/

namespace Json

/-- The values directly inside a JSON value. -/
def parts : Json → List Json
  | array items => items
  | object members => members.map Prod.snd
  | _ => []

/-- Induction over JSON values and those inside them. -/
theorem induct {motive : Json → Prop} (step : ∀ j, (∀ i ∈ j.parts, motive i) → motive j)
    (j : Json) : motive j := by
  apply @Json.rec motive (fun items => ∀ i ∈ items, motive i)
    (fun members => ∀ i ∈ members.map Prod.snd, motive i) (fun member => motive member.2)
  case array => exact fun items ih => step _ ih
  case object => exact fun members ih => step _ ih
  all_goals simp_all [parts]

/-- Under different names, all members of an object are found. -/
theorem lookup_of_mem {members : List (String × Json)} {field : String} {j : Json}
    (hnodup : (members.map Prod.fst).Nodup) (h : (field, j) ∈ members) :
    members.lookup field = some j := by
  induction members with
  | nil => cases h
  | cons p members ih =>
    rw [List.map_cons, List.nodup_cons] at hnodup
    rcases List.mem_cons.1 h with rfl | h
    · simp
    · have hne : field ≠ p.1 := by
        rintro rfl
        exact hnodup.1 (List.mem_map.2 ⟨_, h, rfl⟩)
      rw [List.lookup_cons, beq_eq_false_iff_ne.2 hne]
      exact ih hnodup.2 h

theorem mem_of_lookup {members : List (String × Json)} {field : String} {j : Json}
    (h : members.lookup field = some j) : j ∈ (object members).parts := by
  induction members with
  | nil => cases h
  | cons p members ih =>
    rw [List.lookup_cons] at h
    split at h
    · cases h
      exact List.mem_cons_self
    · exact List.mem_cons_of_mem _ (ih h)

theorem unitVariant?_eq_some_iff {j : Json} {tag : String} :
    j.unitVariant? = some tag ↔ j = .string tag ∨ j = .object [(tag, .null)] := by
  unfold unitVariant?
  split <;> simp_all

end Json

/-! ### Shapes -/

/-- No record has two fields of one name. -/
theorem TreeType.nodup_fields {t : TreeType} {fields : List (String × Schema)}
    (h : t.shape = .record fields) : (fields.map Prod.fst).Nodup := by
  cases t <;> cases h <;> decide

/-- No tree is written as `null`. -/
theorem Shape.write_ne_null {s : Shape} (x : s.Content) : s.write x ≠ .null := by
  cases s with
  | record fields => exact nofun
  | sum alternatives =>
    obtain ⟨p, v⟩ := x
    exact nofun
  | unit names => exact nofun

theorem TreeType.encode_ne_null {t : TreeType} (a : t.Carrier) : encode a ≠ .null := by
  rw [t.shaped.encode_eq]
  exact Shape.write_ne_null _

theorem Codec.decode?_of_ne_null {α : Type} [Codec α] {j : Json} (h : j ≠ .null) :
    (decode? j : Option (Option α)) = some <$> decode? j := by
  cases j with
  | null => exact absurd rfl h
  | _ => rfl

/-! ### From trees to JSON and back -/

/-- A JSON value is read as whatever it was written for. -/
def Json.Faithful (j : Json) : Prop :=
  ∀ (s : Schema) (v : s.Carrier), encode v = j → decode? j = some v

theorem Schema.read?_of_lookup {members : List (String × Json)} {field : String} {j : Json}
    (s : Schema) (h : members.lookup field = some j) : s.read? members field = decode? j := by
  cases s with
  | optional t =>
    rw [read?, Json.optional, h]
    rfl
  | _ => simp only [read?, required, h]

theorem Schema.read?_missing {members : List (String × Json)} {field : String} {t : TreeType}
    (h : members.lookup field = none) : (optional t).read? members field = some none := by
  rw [read?, Json.optional, h]
  rfl

theorem Values.map_fst_write (fields : List (String × Schema)) (vs : Values fields) :
    (Values.write fields vs).map Prod.fst = fields.map Prod.fst := by
  induction fields with
  | nil => rfl
  | cons field fields ih =>
    obtain ⟨v, vs⟩ := vs
    simp [Values.write, ih vs]

theorem Values.reads_of_subset {members : List (String × Json)}
    (hnodup : (members.map Prod.fst).Nodup) (h : ∀ i ∈ (Json.object members).parts, i.Faithful)
    (fields : List (String × Schema)) (vs : Values fields)
    (hsubset : ∀ p ∈ Values.write fields vs, p ∈ members) : Values.Reads members fields vs := by
  induction fields with
  | nil => trivial
  | cons field fields ih =>
    obtain ⟨v, vs⟩ := vs
    have hv : (field.1, encode v) ∈ members := hsubset _ List.mem_cons_self
    refine ⟨?_, ih vs fun p hp => hsubset p (List.mem_cons_of_mem _ hp)⟩
    rw [field.2.read?_of_lookup (lookup_of_mem hnodup hv)]
    exact h _ (List.mem_map.2 ⟨_, hv, rfl⟩) _ v rfl

/-- A tree is read from what was written for it, if the trees inside it are. -/
theorem Shape.reads_write {s : Shape} (x : s.Content)
    (hs : ∀ fields, s = .record fields → (fields.map Prod.fst).Nodup)
    (h : ∀ i ∈ (s.write x).parts, i.Faithful) : s.Reads (s.write x) x := by
  cases s with
  | record fields =>
    refine ⟨_, rfl, Values.reads_of_subset ?_ h fields x fun p hp => hp⟩
    rw [Values.map_fst_write]
    exact hs fields rfl
  | sum alternatives =>
    obtain ⟨p, v⟩ := x
    exact ⟨_, rfl, h _ List.mem_cons_self _ v rfl⟩
  | unit names => rfl

theorem Codec.decodeItems?_map_encode {α : Type} [Codec α] {as : List α}
    (h : ∀ a ∈ as, decode? (encode a) = some a) : decodeItems? (as.map encode) = some as := by
  induction as with
  | nil => rfl
  | cons a as ih =>
    obtain ⟨ha, has⟩ := List.forall_mem_cons.1 h
    simp [decodeItems?, ha, ih has]

theorem Json.faithful (j : Json) : j.Faithful := by
  induction j using Json.induct with
  | step j ih =>
    have htree {t : TreeType} {a : t.Carrier} (ha : encode a = j) : decode? j = some a := by
      rw [t.shaped.decode?_eq_some_iff]
      rw [t.shaped.encode_eq] at ha
      subst ha
      exact Shape.reads_write _ (fun _ => TreeType.nodup_fields) ih
    intro s v hv
    cases s with
    | text => subst hv; rfl
    | flag => subst hv; rfl
    | tree t => exact htree hv
    | optional t =>
      cases v with
      | none => subst hv; rfl
      | some a =>
        -- an option is written as what is in it, which must not pass for none
        have ha : encode a = j := hv
        have hne : j ≠ .null := ha ▸ TreeType.encode_ne_null a
        exact (decode?_of_ne_null hne).trans (congrArg (Option.map some) (htree ha))
    | list t =>
      subst hv
      exact decodeItems?_map_encode fun a ha => ih _ (List.mem_map.2 ⟨a, ha, rfl⟩) (.tree t) a rfl

theorem Schema.decode?_encode (s : Schema) (v : s.Carrier) : decode? (encode v) = some v :=
  (encode v).faithful s v rfl

/-! ### From JSON to trees and back -/

/-- If a tree is read from a JSON value, the value is accepted, and the tree is
written in its canonical form. -/
def Json.Governed (j : Json) : Prop :=
  ∀ (s : Schema) (v : s.Carrier), decode? j = some v → Accepts s j (encode v)

theorem Schema.read?_of_lookup_none {members : List (String × Json)} {field : String} {s : Schema}
    {v : s.Carrier} (h : members.lookup field = none) (hv : s.read? members field = some v) :
    ∃ t, s = .optional t ∧ encode v = .null := by
  cases s with
  | optional t =>
    rw [read?_missing h] at hv
    cases hv
    exact ⟨t, rfl, rfl⟩
  | _ => simp only [read?, required, h] at hv; cases hv

theorem Values.accepts_of_reads {members : List (String × Json)}
    (h : ∀ i ∈ (Json.object members).parts, i.Governed) (fields : List (String × Schema))
    (vs : Values fields) (hr : Values.Reads members fields vs) :
    AcceptsFields members fields (Values.write fields vs) := by
  induction fields with
  | nil => exact .nil members
  | cons field fields ih =>
    obtain ⟨field, s⟩ := field
    obtain ⟨v, vs⟩ := vs
    obtain ⟨hv, hr⟩ := hr
    have hrest := ih vs hr
    cases hj : members.lookup field with
    | some j =>
      rw [s.read?_of_lookup hj] at hv
      exact .cons hj (h j (mem_of_lookup hj) s v hv) hrest
    | none =>
      obtain ⟨t, rfl, hnull⟩ := Schema.read?_of_lookup_none hj hv
      rw [Values.write, hnull]
      exact .missing hj hrest

theorem Shape.accepts_of_reads {t : TreeType} {s : Shape} (ht : t.shape = s) {j : Json}
    (x : s.Content) (h : ∀ i ∈ j.parts, i.Governed) (hr : s.Reads j x) :
    Accepts (.tree t) j (s.write x) := by
  cases s with
  | record fields =>
    obtain ⟨members, rfl, hr⟩ := hr
    exact .record ht (Values.accepts_of_reads h fields x hr)
  | sum alternatives =>
    obtain ⟨⟨p, hp⟩, v⟩ := x
    obtain ⟨payload, rfl, hr⟩ := hr
    exact .alternative ht hp (h _ List.mem_cons_self _ v hr)
  | unit names =>
    obtain ⟨name, hname⟩ := x
    rcases unitVariant?_eq_some_iff.1 hr with rfl | rfl
    · exact .unit ht hname
    · exact .unitObject ht hname

theorem Codec.accepts_of_decodeItems? {t : TreeType} {js : List Json} {as : List t.Carrier}
    (h : ∀ j ∈ js, j.Governed) (has : decodeItems? js = some as) :
    AcceptsItems t js (as.map encode) := by
  induction js generalizing as with
  | nil =>
    cases has
    exact .nil t
  | cons j js ih =>
    obtain ⟨hj, hjs⟩ := List.forall_mem_cons.1 h
    obtain ⟨a, ha, hrest⟩ := Option.bind_eq_some_iff.1 has
    obtain ⟨bs, hbs, hcons⟩ := Option.bind_eq_some_iff.1 hrest
    cases hcons
    exact .cons (hj (.tree t) a ha) (ih hjs hbs)

theorem Json.governed (j : Json) : j.Governed := by
  induction j using Json.induct with
  | step j ih =>
    have htree {t : TreeType} {a : t.Carrier} (ha : decode? j = some a) :
        Accepts (.tree t) j (encode a) := by
      rw [t.shaped.encode_eq]
      exact Shape.accepts_of_reads rfl _ ih ((t.shaped.decode?_eq_some_iff j a).1 ha)
    intro s v hv
    cases s with
    | text =>
      cases j with
      | string text =>
        cases hv
        exact .text _
      | _ => cases hv
    | flag =>
      cases j with
      | bool b =>
        cases hv
        exact .flag _
      | _ => cases hv
    | tree t => exact htree hv
    | optional t =>
      by_cases hj : j = .null
      · subst hj
        cases hv
        exact .none t
      · obtain ⟨a, ha, rfl⟩ := Option.map_eq_some_iff.1 ((decode?_of_ne_null hj).symm.trans hv)
        exact .some (htree ha)
    | list t =>
      cases j with
      | array items => exact .list (accepts_of_decodeItems? ih hv)
      | _ => cases hv

theorem Schema.accepts_encode {s : Schema} {j : Json} {v : s.Carrier} (h : decode? j = some v) :
    Accepts s j (encode v) := j.governed s v h

/-! ### Nothing else is accepted -/

/-- What can stand in a tree of a type, stands in a tree. -/
theorem TreeType.exists_tree {t : TreeType} {s : Shape} (ht : t.shape = s) (x : s.Content) :
    ∃ a : t.Carrier, (∀ j, s.Reads j x → decode? j = some a) ∧ encode a = s.write x := by
  subst ht
  obtain ⟨a, rfl⟩ := t.shaped.surjective x
  exact ⟨a, fun j => (t.shaped.decode?_eq_some_iff j a).2, t.shaped.encode_eq a⟩

theorem Accepts.ne_null {t : TreeType} {j c : Json} (h : Accepts (.tree t) j c) : j ≠ .null := by
  rintro rfl
  cases h

mutual

/-- Whatever is accepted is read, and written again in its canonical form. -/
theorem Accepts.decode? {s : Schema} {j c : Json} : Accepts s j c →
    ∃ v : s.Carrier, Codec.decode? j = some v ∧ encode v = c
  | .text s => ⟨s, rfl, rfl⟩
  | .flag b => ⟨b, rfl, rfl⟩
  | .record ht h => by
    obtain ⟨vs, hr, hw⟩ := h.reads
    obtain ⟨a, ha, hwrite⟩ := TreeType.exists_tree ht vs
    exact ⟨a, ha _ ⟨_, rfl, hr⟩, hwrite.trans (congrArg _ hw)⟩
  | .alternative ht hs h => by
    obtain ⟨v, hr, rfl⟩ := h.decode?
    obtain ⟨a, ha, hwrite⟩ := TreeType.exists_tree ht ⟨⟨_, hs⟩, v⟩
    exact ⟨a, ha _ ⟨_, rfl, hr⟩, hwrite⟩
  | .unit ht h => by
    obtain ⟨a, ha, hwrite⟩ := TreeType.exists_tree ht ⟨_, h⟩
    exact ⟨a, ha _ rfl, hwrite⟩
  | .unitObject ht h => by
    obtain ⟨a, ha, hwrite⟩ := TreeType.exists_tree ht ⟨_, h⟩
    exact ⟨a, ha _ rfl, hwrite⟩
  | .none t => ⟨none, rfl, rfl⟩
  | .some h => by
    obtain ⟨a, ha, rfl⟩ := h.decode?
    exact ⟨some a, (decode?_of_ne_null h.ne_null).trans (congrArg (Option.map some) ha), rfl⟩
  | .list h => by
    obtain ⟨as, has, rfl⟩ := h.decodeItems?
    exact ⟨as, has, rfl⟩

theorem AcceptsFields.reads {members : List (String × Json)} {fields : List (String × Schema)}
    {cs : List (String × Json)} : AcceptsFields members fields cs →
    ∃ vs : Values fields, Values.Reads members fields vs ∧ Values.write fields vs = cs
  | .nil _ => ⟨(), trivial, rfl⟩
  | .cons hj h hs => by
    obtain ⟨v, hv, rfl⟩ := h.decode?
    obtain ⟨vs, hr, rfl⟩ := hs.reads
    exact ⟨(v, vs), ⟨(Schema.read?_of_lookup _ hj).trans hv, hr⟩, rfl⟩
  | .missing hj hs => by
    obtain ⟨vs, hr, rfl⟩ := hs.reads
    exact ⟨(none, vs), ⟨Schema.read?_missing hj, hr⟩, rfl⟩

theorem AcceptsItems.decodeItems? {t : TreeType} {js cs : List Json} : AcceptsItems t js cs →
    ∃ as : List t.Carrier, Codec.decodeItems? js = some as ∧ as.map encode = cs
  | .nil t => ⟨[], rfl, rfl⟩
  | .cons h hs => by
    obtain ⟨a, ha, rfl⟩ := h.decode?
    obtain ⟨as, has, rfl⟩ := hs.decodeItems?
    exact ⟨a :: as, by simp [Codec.decodeItems?, ha, has], rfl⟩

end

/-! ### All together -/

/-- Every tree of every type is read back from what was written for it, and what
was written has the canonical form.  What is read is exactly what the schema
accepts; written again it has its canonical form, and reads as the same tree. -/
theorem TreeType.codec_roundTrip (t : TreeType) :
    (∀ a : t.Carrier, Canonical (.tree t) (encode a) ∧ decode? (encode a) = some a) ∧
    (∀ j, (∃ a : t.Carrier, decode? j = some a) ↔ ∃ c, Accepts (.tree t) j c) ∧
    ∀ j (a : t.Carrier), decode? j = some a →
      Accepts (.tree t) j (encode a) ∧ Canonical (.tree t) (encode a) ∧
        decode? (encode a) = some a := by
  have hback (a : t.Carrier) : decode? (encode a) = some a := Schema.decode?_encode (.tree t) a
  have hcanonical {j : Json} {a : t.Carrier} (h : decode? j = some a) :
      Accepts (.tree t) j (encode a) := Schema.accepts_encode (s := .tree t) h
  refine ⟨fun a => ⟨(hcanonical (hback a)).canonical, hback a⟩, fun j => ⟨?_, ?_⟩, fun j a h => ?_⟩
  · rintro ⟨a, ha⟩
    exact ⟨_, hcanonical ha⟩
  · rintro ⟨c, hc⟩
    obtain ⟨a, ha, -⟩ := hc.decode?
    exact ⟨a, ha⟩
  · exact ⟨hcanonical h, (hcanonical h).canonical, hback a⟩

/-- A field `a`, without its options, in another order and with a member too many. -/
def fieldMembers : List (String × Json) :=
  [("name", .object [("value", .string "a")]), ("line", .number 1 0), ("directives", .array []),
    ("arguments", .array [])]

theorem TreeType.codec_roundTrip_field :
    decode? (.object fieldMembers) = some (⟨none, ⟨"a"⟩, [], [], none⟩ : Field) ∧
      (Accepts (.tree .field) (.object fieldMembers)
        (encode (⟨none, ⟨"a"⟩, [], [], none⟩ : Field)) ∧
      Canonical (.tree .field) (encode (⟨none, ⟨"a"⟩, [], [], none⟩ : Field)) ∧
      decode? (encode (⟨none, ⟨"a"⟩, [], [], none⟩ : Field)) =
        some (⟨none, ⟨"a"⟩, [], [], none⟩ : Field)) :=
  ⟨rfl, (TreeType.codec_roundTrip .field).2.2 (.object fieldMembers)
    (⟨none, ⟨"a"⟩, [], [], none⟩ : Field) rfl⟩

end GraphQL
