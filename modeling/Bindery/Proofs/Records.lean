import Bindery.Tree.Decode
import Bindery.Tree.Encode
import Mathlib.Data.List.Forall2

/-!
Records that are written in another way.

An object is `Edited` if its fields are put in another order, fields that are null are left out and
fields with new names are added, in it and in all objects inside. A reader that asks for the fields
of the object by name finds the same, up to edits further inside (`Edited.fields?`). A value is
`Read` as something by a reader if all its edited forms are.

Readers hold values with what they are part of, and they hold documents in place of values. What
they find does not depend on that (`Contents.Rel.fields?`).
-/

namespace Bindery.Json

/-! ### Related contents -/

variable {α β : Type} {fields entries : List (String × Value)} {v : Value} {tag : String}

namespace Contents

variable {R : α → β → Prop}

theorem valuesOf_cons (name other : String) (value : α) (fields : List (String × α)) :
    valuesOf name ((other, value) :: fields) =
      if other == name then value :: valuesOf name fields else valuesOf name fields := by
  unfold valuesOf
  rw [List.filter_cons]
  split
  · rfl
  · rfl

theorem valuesOf_append (name : String) (fields more : List (String × α)) :
    valuesOf name (fields ++ more) = valuesOf name fields ++ valuesOf name more := by
  unfold valuesOf
  rw [List.filter_append, List.map_append]

variable {name : String} {fields : List (String × α)}

theorem valuesOf_perm {more : List (String × α)} (h : fields.Perm more) :
    (valuesOf name fields).Perm (valuesOf name more) :=
  (h.filter _).map _

theorem valuesOf_eq_nil (absent : ∀ field ∈ fields, field.1 ≠ name) :
    valuesOf name fields = [] := by
  unfold valuesOf
  rw [List.map_eq_nil_iff, List.filter_eq_nil_iff]
  intro field mem
  simpa using absent field mem

/-- The tag is no other field. -/
theorem valuesOf_untagged (fields : List (String × α)) (ne : name ≠ tag) :
    valuesOf name (fields.filter (·.1 != tag)) = valuesOf name fields := by
  unfold valuesOf
  rw [List.filter_filter]
  congr 2
  funext field
  by_cases same : field.1 = name
  · simp [same, ne]
  · simp [same]

/-- Contents with the same names and related values. -/
inductive Rel (R : α → β → Prop) : Contents α → Contents β → Prop where
  | named {fields : List (String × α)} {others : List (String × β)} :
      fields.Forall₂ (fun f g => f.1 = g.1 ∧ R f.2 g.2) others →
      Rel R (.named fields) (.named others)
  | listed {items : List α} {others : List β} :
      items.Forall₂ R others → Rel R (.listed items) (.listed others)

theorem forall₂_valuesOf {others : List (String × β)} (name : String)
    (h : fields.Forall₂ (fun f g => f.1 = g.1 ∧ R f.2 g.2) others) :
    (valuesOf name fields).Forall₂ R (valuesOf name others) := by
  induction h with
  | nil => exact .nil
  | @cons f g _ _ same _ ih =>
    obtain ⟨first, value⟩ := f
    obtain ⟨first', value'⟩ := g
    obtain ⟨names, values⟩ := same
    cases names
    rw [valuesOf_cons, valuesOf_cons]
    split
    · exact .cons values ih
    · exact ih

theorem rel_bind {γ δ : Type} {S : γ → δ → Prop} {x : Option α} {y : Option β} {f : α → Option γ}
    {g : β → Option δ} (first : Option.Rel R x y)
    (then_ : ∀ a b, R a b → Option.Rel S (f a) (g b)) : Option.Rel S (x >>= f) (y >>= g) := by
  cases first with
  | none => exact .none
  | some related => exact then_ _ _ related

theorem rel_mapM {ι : Type} {f : ι → Option α} {g : ι → Option β} (l : List ι)
    (h : ∀ i, Option.Rel R (f i) (g i)) : Option.Rel (List.Forall₂ R) (l.mapM f) (l.mapM g) := by
  induction l with
  | nil => exact .some .nil
  | cons i _ ih =>
    rw [List.mapM_cons, List.mapM_cons]
    refine rel_bind (h i) ?_
    intro a b first
    refine rel_bind ih ?_
    intro as bs others
    exact .some (.cons first others)

/-- Asking for fields by name finds related values. -/
theorem Rel.fields? {c : Contents α} {c' : Contents β} (h : c.Rel R c') (names : List String) :
    Option.Rel (List.Forall₂ (Option.Rel R)) (c.fields? names) (c'.fields? names) := by
  cases h with
  | @named fields others same =>
    refine rel_mapM names ?_
    intro name
    have values := forall₂_valuesOf name same
    generalize valuesOf name fields = found, valuesOf name others = found' at values
    rcases values with _ | ⟨first, _ | ⟨_, _⟩⟩
    · exact .some .none
    · exact .some (.some first)
    · exact .none
  | listed same =>
    unfold Contents.fields?
    simp only [same.length_eq]
    split
    · refine .some (List.forall₂_map_left_iff.mpr (List.forall₂_map_right_iff.mpr ?_))
      exact same.imp fun _ _ related => .some related
    · exact .none

/-- Contents that are tagged have related tags, and the rest is related. -/
theorem Rel.tagged? {c : Contents α} {c' : Contents β} (h : c.Rel R c') (tag : String) :
    Option.Rel (fun x y => R x.1 y.1 ∧ x.2.Rel R y.2) (c.tagged? tag) (c'.tagged? tag) := by
  cases h with
  | @named fields others same =>
    have values := forall₂_valuesOf tag same
    have rest :
        Rel R (.named (fields.filter (·.1 != tag))) (.named (others.filter (·.1 != tag))) := by
      refine .named (List.rel_filter ?_ same)
      intro f g related
      simp only [related.1]
    simp only [Contents.tagged?]
    generalize valuesOf tag fields = found, valuesOf tag others = found' at values
    rcases values with _ | ⟨first, _ | ⟨_, _⟩⟩
    · exact .none
    · exact .some ⟨first, rest⟩
    · exact .none
  | listed same =>
    cases same with
    | nil => exact .none
    | cons first others => exact .some ⟨first, .listed others⟩

end Contents

/-- What is related to something that is there is there. -/
theorem exists_of_rel {R : α → β → Prop} {x : Option α} {b : β} (h : Option.Rel R x (some b)) :
    ∃ a, x = some a ∧ R a b := by
  cases h with
  | some related => exact ⟨_, rfl, related⟩

theorem eq_of_rel {x y : Option α} (h : Option.Rel Eq x y) : x = y := by
  cases h with
  | none => rfl
  | some same => rw [same]

theorem rel_of_eq {x y : Option α} (h : x = y) : Option.Rel Eq x y := by
  subst h
  cases x with
  | none => exact .none
  | some => exact .some rfl

theorem bind_of_some {x : Option α} {a : α} {f : α → Option β} (h : x = some a) :
    x >>= f = f a := by
  rw [h]
  rfl

/-! ### Parts of values -/

namespace Value

variable {v w : Value}

theorem rel_plain (contents : Contents v.Part) :
    contents.Rel (fun part w => part.1 = w) contents.plain := by
  cases contents with
  | named =>
    refine .named (List.forall₂_map_right_iff.mpr (List.forall₂_same.mpr ?_))
    intro field _
    exact ⟨rfl, rfl⟩
  | listed =>
    refine .listed (List.forall₂_map_right_iff.mpr (List.forall₂_same.mpr ?_))
    intro item _
    rfl

theorem plain_of_rel {contents : Contents v.Part} {c : Contents Value}
    (h : contents.Rel (fun part w => part.1 = w) c) : contents.plain = c := by
  cases h with
  | named same =>
    refine congrArg Contents.named ?_
    rw [← List.forall₂_eq_eq_eq, List.forall₂_map_left_iff]
    exact same.imp fun _ _ both => Prod.ext both.1 both.2
  | listed same =>
    refine congrArg Contents.listed ?_
    rw [← List.forall₂_eq_eq_eq, List.forall₂_map_left_iff]
    exact same

theorem bind_plain (v : Value) (f : Contents Value → Option α) :
    (do f (← v.contents?).plain) = v.contents?.map (·.plain) >>= f := by
  cases v.contents? with
  | none => rfl
  | some => rfl

/-- The contents of an object are its fields. -/
theorem contents?_object (fields : List (String × Value)) :
    ∃ contents, (Value.object fields).contents? = some contents ∧
      contents.plain = .named fields := by
  refine ⟨_, rfl, ?_⟩
  rw [Contents.plain, List.map_map]
  exact congrArg Contents.named (List.attach_map_subtype_val fields)

theorem contents?_array (items : List Value) :
    ∃ contents, (Value.array items).contents? = some contents ∧
      contents.plain = .listed items := by
  refine ⟨_, rfl, ?_⟩
  rw [Contents.plain, List.map_map]
  exact congrArg Contents.listed (List.attach_map_subtype_val items)

theorem items?_array (items : List Value) :
    ∃ parts, (Value.array items).items? = some parts ∧ parts.unattach = items := by
  refine ⟨_, rfl, ?_⟩
  rw [List.unattach, List.map_map]
  exact List.attach_map_subtype_val items

/-- Arrays and objects are no strings. -/
theorem string?_eq_none (h : w.contents?.isSome) : w.string? = none := by
  cases w with
  | array => rfl
  | object => rfl
  | _ => cases h

/-- Arrays and objects are no numbers. -/
theorem below?_eq_none {limit : Nat} (h : w.contents?.isSome) : w.below? limit = none := by
  cases w with
  | array => rfl
  | object => rfl
  | _ => cases h

end Value

/-! ### Edits -/

mutual

/-- `Edited v w`: the value `w` is `v`, with edits inside objects. -/
inductive Edited : Value → Value → Prop where
  | null : Edited .null .null
  | bool (b : Bool) : Edited (.bool b) (.bool b)
  | number (n : Number) : Edited (.number n) (.number n)
  | string (s : String) : Edited (.string s) (.string s)
  | array {items others : List Value} : EditedItems items others →
      Edited (.array items) (.array others)
  /-- Fields that are null may be left out, fields with names that the object does not have are
  added, and all may be put in another order. -/
  | object {fields kept added entries : List (String × Value)} : EditedFields fields kept →
      (∀ field ∈ added, field.1 ∉ fields.map (·.1)) → (kept ++ added).Perm entries →
      Edited (.object fields) (.object entries)

inductive EditedItems : List Value → List Value → Prop where
  | nil : EditedItems [] []
  | cons {v w : Value} {items others : List Value} : Edited v w → EditedItems items others →
      EditedItems (v :: items) (w :: others)

inductive EditedFields : List (String × Value) → List (String × Value) → Prop where
  | nil : EditedFields [] []
  | keep {name : String} {v w : Value} {fields kept : List (String × Value)} : Edited v w →
      EditedFields fields kept → EditedFields ((name, v) :: fields) ((name, w) :: kept)
  | drop {name : String} {fields kept : List (String × Value)} : EditedFields fields kept →
      EditedFields ((name, .null) :: fields) kept

end

/-- What is found in place of a field. -/
inductive EditedField : Value → Option Value → Prop where
  | kept {v w : Value} : Edited v w → EditedField v (some w)
  | dropped : EditedField .null none

namespace Edited

mutual

theorem refl : (v : Value) → Edited v v
  | .null => .null
  | .bool b => .bool b
  | .number n => .number n
  | .string s => .string s
  | .array items => .array (refl_items items)
  | .object fields => by
    have kept := refl_fields fields
    refine .object kept (List.forall_mem_nil _) ?_
    rw [List.append_nil]

theorem refl_items : (items : List Value) → EditedItems items items
  | [] => .nil
  | v :: items => .cons (refl v) (refl_items items)

theorem refl_fields : (fields : List (String × Value)) → EditedFields fields fields
  | [] => .nil
  | (_, v) :: fields => .keep (refl v) (refl_fields fields)

end

end Edited

namespace EditedFields

variable {fields kept : List (String × Value)}

/-- No names are made up. -/
theorem names (h : EditedFields fields kept) : ∀ field ∈ kept, field.1 ∈ fields.map (·.1) := by
  induction fields generalizing kept with
  | nil =>
    cases h
    exact List.forall_mem_nil _
  | cons _ _ ih =>
    cases h with
    | keep _ others =>
      refine List.forall_mem_cons.mpr ⟨.head _, ?_⟩
      intro field mem
      exact .tail _ (ih others field mem)
    | drop others =>
      intro field mem
      exact .tail _ (ih others field mem)

/-- A field with a name of its own is found once, or it is null and left out. -/
theorem valuesOf (h : EditedFields fields kept) (nodup : (fields.map (·.1)).Nodup) :
    ∀ field ∈ fields, ∃ slot, Contents.valuesOf field.1 kept = slot.toList ∧
      EditedField field.2 slot := by
  induction fields generalizing kept with
  | nil => exact List.forall_mem_nil _
  | cons first rest ih =>
    obtain ⟨name, v⟩ := first
    rw [List.map_cons, List.nodup_cons] at nodup
    obtain ⟨fresh, nodup⟩ := nodup
    -- the name of the first field is not among the others
    have other : ∀ {kept}, EditedFields rest kept → Contents.valuesOf name kept = [] := by
      intro kept others
      refine Contents.valuesOf_eq_nil ?_
      rintro field mem rfl
      exact fresh (others.names field mem)
    rw [List.forall_mem_cons]
    cases h with
    | @keep _ _ w _ kept edited others =>
      constructor
      · refine ⟨some w, ?_, .kept edited⟩
        rw [Contents.valuesOf_cons, other others]
        simp
      · intro field mem
        have ne : name ≠ field.1 := by
          intro same
          exact fresh (List.mem_map.mpr ⟨field, mem, same.symm⟩)
        rw [Contents.valuesOf_cons, if_neg (by simpa using ne)]
        exact ih others nodup field mem
    | drop others =>
      constructor
      · exact ⟨none, other others, .dropped⟩
      · exact ih others nodup

end EditedFields

/-- Each field of an edited object is found once, or it is null and left out. -/
theorem Edited.valuesOf {fields : List (String × Value)} {v : Value} (h : Edited (.object fields) v)
    (nodup : (fields.map (·.1)).Nodup) :
    ∃ entries, v = .object entries ∧ ∀ field ∈ fields, ∃ slot,
      Contents.valuesOf field.1 entries = slot.toList ∧ EditedField field.2 slot := by
  cases h with
  | @object _ kept added entries same new order =>
    refine ⟨entries, rfl, ?_⟩
    intro field mem
    obtain ⟨slot, found, edited⟩ := same.valuesOf nodup field mem
    refine ⟨slot, ?_, edited⟩
    have absent : Contents.valuesOf field.1 added = [] := by
      refine Contents.valuesOf_eq_nil ?_
      intro other inside equal
      exact new other inside (equal ▸ List.mem_map_of_mem mem)
    have all : (Contents.valuesOf field.1 (kept ++ added)).Perm
        (Contents.valuesOf field.1 entries) := Contents.valuesOf_perm order
    rw [Contents.valuesOf_append, absent, List.append_nil, found] at all
    cases slot with
    | none => exact List.nil_perm.mp all
    | some => exact (List.singleton_perm.mp all).symm

theorem forall₂_of_exists {P : α → β → Prop} {l : List α} (h : ∀ a ∈ l, ∃ b, P a b) :
    ∃ found, l.Forall₂ P found := by
  induction l with
  | nil => exact ⟨[], .nil⟩
  | cons _ _ ih =>
    rw [List.forall_mem_cons] at h
    obtain ⟨⟨b, first⟩, others⟩ := h
    obtain ⟨found, all⟩ := ih others
    exact ⟨b :: found, .cons first all⟩

namespace Contents

/-- `Holds fields names found`: each name stands at most once in `fields`, and there with the value
that is found. -/
def Holds {α : Type} (fields : List (String × α)) (names : List String) (found : List (Option α)) :
    Prop :=
  names.Forall₂ (fun name slot => valuesOf name fields = slot.toList) found

variable {fields : List (String × α)} {names : List String} {found : List (Option α)}

/-- Fields that an object holds are found. -/
theorem Holds.fields? (h : Holds fields names found) :
    (Contents.named fields).fields? names = some found := by
  unfold Contents.fields?
  induction h with
  | nil => rfl
  | @cons _ slot _ _ first _ ih =>
    simp only at ih ⊢
    rw [List.mapM_cons, first, ih]
    cases slot with
    | none => rfl
    | some => rfl

/-- The tag is not among the other fields. -/
theorem Holds.untagged (h : Holds fields names found) (absent : tag ∉ names) :
    Holds (fields.filter (·.1 != tag)) names found := by
  unfold Holds at h ⊢
  induction h with
  | nil => exact .nil
  | cons first _ ih =>
    rw [List.mem_cons, not_or] at absent
    refine .cons ?_ (ih absent.2)
    rw [valuesOf_untagged _ (Ne.symm absent.1), first]

end Contents

/-- A reader that asks for the fields of an object finds them in an edited one. -/
theorem Edited.fields? (h : Edited (.object fields) v) (nodup : (fields.map (·.1)).Nodup) :
    ∃ entries found, v = .object entries ∧ Contents.Holds entries (fields.map (·.1)) found ∧
      (fields.map (·.2)).Forall₂ EditedField found := by
  obtain ⟨entries, rfl, each⟩ := h.valuesOf nodup
  obtain ⟨found, all⟩ := forall₂_of_exists each
  refine ⟨entries, found, rfl, ?_, ?_⟩
  · exact List.forall₂_map_left_iff.mpr (all.imp fun _ _ both => both.1)
  · exact List.forall₂_map_left_iff.mpr (all.imp fun _ _ both => both.2)

/-! ### Readers -/

/-- `contents.Finds fields parts`: the contents have names, and asked for `fields` they give
`parts`, which are edited forms of the values. -/
structure Contents.Finds {v : Value} (contents : Contents v.Part) (fields : List (String × Value))
    (parts : List (Option v.Part)) : Prop where
  found : contents.fields? (fields.map (·.1)) = some parts
  plain : contents.plain.fields? (fields.map (·.1)) = some (parts.map (·.unattach))
  named : ∃ entries, contents.plain = .named entries
  edited : (fields.map (·.2)).Forall₂ (fun u slot => EditedField u slot.unattach) parts

/-- The fields of an edited object are found, each edited. -/
theorem Contents.exists_finds {contents : Contents v.Part} {found : List (Option Value)}
    (plain : contents.plain = .named entries) (names : Holds entries (fields.map (·.1)) found)
    (edited : (fields.map (·.2)).Forall₂ EditedField found) :
    ∃ parts, contents.Finds fields parts := by
  have related := (Value.rel_plain contents).fields? (fields.map (·.1))
  rw [plain, names.fields?] at related
  obtain ⟨parts, here, same⟩ := exists_of_rel related
  have values : parts.map (·.unattach) = found := by
    rw [← List.forall₂_eq_eq_eq, List.forall₂_map_left_iff]
    refine same.imp ?_
    intro part w equal
    cases equal with
    | none => rfl
    | some equal => exact congrArg some equal
  subst values
  refine ⟨parts, here, ?_, ⟨entries, plain⟩, List.forall₂_map_right_iff.mp edited⟩
  rw [plain]
  exact names.fields?

/-- The contents of an edited record. -/
theorem Edited.finds {fields : List (String × Value)} {v : Value} (h : Edited (.object fields) v)
    (nodup : (fields.map (·.1)).Nodup) :
    ∃ contents parts, v.contents? = some contents ∧ contents.Finds fields parts := by
  obtain ⟨entries, found, rfl, names, edited⟩ := h.fields? nodup
  obtain ⟨contents, here, plain⟩ := Value.contents?_object entries
  obtain ⟨parts, finds⟩ := Contents.exists_finds plain names edited
  exact ⟨contents, parts, here, finds⟩

/-- `Read reader u a`: all edited forms of `u` are read as `a`. -/
structure Read {α : Type} (reader : Value → Option α) (u : Value) (a : α) : Prop where
  present : u ≠ .null
  edited : ∀ w, Edited u w → reader w = some a

namespace Read

variable {reader : Value → Option α} {u : Value} {a : α}

theorem bool (b : Bool) : Read Value.bool? (.bool b) b where
  present := by simp
  edited w h := by
    cases h
    rfl

theorem string (s : String) : Read Value.string? (.string s) s where
  present := by simp
  edited w h := by
    cases h
    rfl

theorem word (s : String) : Read Value.word? (.string s) s where
  present := by simp
  edited w h := by
    cases h
    rfl

variable {fields : List (String × Value)} {v : Value}

/-- A record is read by its fields. -/
theorem record (nodup : (fields.map (·.1)).Nodup)
    (h : ∀ (v : Value) (contents : Contents v.Part) (parts : List (Option v.Part)),
      v.contents? = some contents → contents.Finds fields parts → reader v = some a) :
    Read reader (.object fields) a where
  present := by simp
  edited w edit := by
    obtain ⟨contents, parts, here, finds⟩ := edit.finds nodup
    exact h w contents parts here finds

/-- A node is read by its kind and its fields. -/
theorem tagged {κ : Type} {all : List κ} {name : κ → String} {nested : Bool} {kind : κ}
    {body : (v : Value) → v.Part × Contents v.Part → κ → Option α}
    (unfolds : ∀ v, reader v = v.contents? >>= fun contents => contents.tagged? "kind" >>=
      fun split => kindOf? all name nested split.1.1 >>= body v split)
    (known : kindOf? all name nested (.string (name kind)) = some kind)
    (nodup : ("kind" :: fields.map (·.1)).Nodup)
    (h : ∀ (v : Value) (tag : v.Part) (rest : Contents v.Part) (parts : List (Option v.Part)),
      rest.Finds fields parts → body v (tag, rest) kind = some a) :
    Read reader (kindValue (name kind) fields) a where
  present := by simp [kindValue]
  edited w edit := by
    obtain ⟨entries, found, rfl, names, edited⟩ := edit.fields? nodup
    obtain ⟨contents, here, plain⟩ := Value.contents?_object entries
    obtain _ | ⟨word, names⟩ := names
    obtain _ | ⟨spelt, edited⟩ := edited
    have names := Contents.Holds.untagged names (List.nodup_cons.mp nodup).1
    obtain ⟨edit⟩ := spelt
    cases edit
    have split : (Contents.named entries).tagged? "kind" =
        some (.string (name kind), .named (entries.filter (·.1 != "kind"))) := by
      simp only [Contents.tagged?, word, Option.toList_some]
    have related := (Value.rel_plain contents).tagged? "kind"
    rw [plain, split] at related
    obtain ⟨⟨tag, rest⟩, there, same, others⟩ := exists_of_rel related
    obtain ⟨parts, finds⟩ := Contents.exists_finds (Value.plain_of_rel others) names edited
    rw [unfolds]
    refine (bind_of_some here).trans ((bind_of_some there).trans ?_)
    exact (bind_of_some (same ▸ known)).trans (h _ tag rest parts finds)

/-- A field that is read. -/
theorem part {v : Value} {slot : Option v.Part} (h : Read reader u a)
    (edit : EditedField u slot.unattach) : ∃ part, slot = some part ∧ reader part.1 = some a := by
  cases slot with
  | none =>
    cases edit
    exact absurd rfl h.present
  | some part =>
    cases edit with
    | kept edit => exact ⟨part, rfl, h.edited _ edit⟩

/-- A field that is not null is present. -/
theorem present_eq {slot : Option v.Part} (h : Read reader u a)
    (edit : EditedField u slot.unattach) : Json.present slot = slot := by
  cases slot with
  | none => rfl
  | some part =>
    obtain ⟨w, inside⟩ := part
    cases edit with
    | kept edit =>
      cases edit with
      | null => exact absurd rfl h.present
      | _ => rfl

/-- A field that is null is not. -/
theorem present_null {slot : Option v.Part} (edit : EditedField .null slot.unattach) :
    Json.present slot = none := by
  cases slot with
  | none => rfl
  | some part =>
    obtain ⟨w, inside⟩ := part
    cases edit with
    | kept edit =>
      cases edit
      rfl

/-- A field that may be missing. -/
theorem optional {field? : Option Value → Option (Option α)} {write : α → Value}
    {found : Option α} {slot : Option Value} (absent : field? none = some none)
    (null : field? (some .null) = some none)
    (given : ∀ w, w ≠ .null → field? (some w) = (reader w).map some)
    (h : ∀ x ∈ found, Read reader (write x) x)
    (edit : EditedField (.ofOption (found.map write)) slot) : field? slot = some found := by
  cases found with
  | none =>
    cases edit with
    | kept edit =>
      cases edit
      exact null
    | dropped => exact absent
  | some x =>
    obtain ⟨present, edited⟩ := h x rfl
    change EditedField (write x) slot at edit
    generalize write x = u at present edited edit
    cases edit with
    | kept edit =>
      have there : ∀ {w}, Edited u w → w ≠ .null := by
        rintro w edit rfl
        cases edit
        exact present rfl
      rw [given _ (there edit), edited _ edit]
      rfl
    | dropped => exact absurd rfl present

/-- The items of an array are read one by one. -/
theorem mapM {us ws : List Value} {as : List α} (each : us.Forall₂ (Read reader) as)
    (edit : EditedItems us ws) : ws.mapM reader = some as := by
  induction each generalizing ws with
  | nil =>
    cases edit
    rfl
  | cons first _ ih =>
    cases edit with
    | cons edit others =>
      rw [List.mapM_cons, first.edited _ edit, ih others]
      rfl

/-- A field that is an array. -/
theorem items {slot : Option v.Part} {us : List Value} {as : List α}
    (each : us.Forall₂ (Read reader) as) (edit : EditedField (.array us) slot.unattach) :
    ∃ part parts, slot = some part ∧ part.1.items? = some parts ∧
      parts.unattach.mapM reader = some as := by
  cases slot with
  | none => cases edit
  | some part =>
    obtain ⟨w, inside⟩ := part
    cases edit with
    | kept edit =>
      cases edit with
      | @array _ others edit =>
        obtain ⟨parts, here, plain⟩ := Value.items?_array others
        refine ⟨_, parts, rfl, here, ?_⟩
        rw [plain]
        exact mapM each edit

end Read

/-! ### Documents -/

namespace Document

/-- `d.Denotes limit v`: the document has the value `v`, within the limit. -/
def Denotes (limit : Nat) (d : Document) (v : Value) : Prop := d.value? limit = some v

variable {limit : Nat} {d : Document} {v : Value}

theorem forall₂_itemValues? {items : List Document} {values : List Value}
    (h : itemValues? limit items = some values) : items.Forall₂ (Denotes limit) values := by
  induction items generalizing values with
  | nil =>
    cases h
    exact .nil
  | cons _ _ ih =>
    obtain ⟨value, first, h⟩ := Option.bind_eq_some_iff.mp h
    obtain ⟨others, found, h⟩ := Option.bind_eq_some_iff.mp h
    cases h
    exact .cons first (ih found)

theorem forall₂_fieldValues? {fields : List (List Piece × Document)}
    (h : fieldValues? limit fields = some entries) :
    ∃ named,
      fields.mapM (fun field => (text? field.1).map fun name => (name, field.2)) = some named ∧
      named.Forall₂ (fun f g => f.1 = g.1 ∧ Denotes limit f.2 g.2) entries := by
  induction fields generalizing entries with
  | nil =>
    cases h
    exact ⟨[], rfl, .nil⟩
  | cons field _ ih =>
    obtain ⟨pieces, d⟩ := field
    obtain ⟨name, text, h⟩ := Option.bind_eq_some_iff.mp h
    obtain ⟨value, first, h⟩ := Option.bind_eq_some_iff.mp h
    obtain ⟨others, found, h⟩ := Option.bind_eq_some_iff.mp h
    cases h
    obtain ⟨named, same, all⟩ := ih found
    refine ⟨(name, d) :: named, ?_, .cons ⟨rfl, first⟩ all⟩
    simp [text, same]

/-- A document has the contents of its value. -/
theorem rel_contents (h : d.Denotes (limit + 1) v) :
    Option.Rel (Contents.Rel (Denotes limit)) d.contents? (v.contents?.map (·.plain)) := by
  cases d with
  | null =>
    cases h
    exact .none
  | bool =>
    cases h
    exact .none
  | number | string =>
    obtain ⟨_, _, rfl⟩ := Option.map_eq_some_iff.mp h
    exact .none
  | array =>
    obtain ⟨values, found, rfl⟩ := Option.map_eq_some_iff.mp h
    obtain ⟨contents, here, plain⟩ := Value.contents?_array values
    rw [here, Option.map_some, plain]
    exact .some (.listed (forall₂_itemValues? found))
  | object =>
    obtain ⟨entries, found, rfl⟩ := Option.map_eq_some_iff.mp h
    obtain ⟨contents, here, plain⟩ := Value.contents?_object entries
    obtain ⟨named, same, all⟩ := forall₂_fieldValues? found
    rw [here, Option.map_some, plain, contents?, same]
    exact .some (.named all)

/-- What is no array and no object has its value within any limit. -/
theorem value?_zero (h : d.Denotes limit v) :
    d.value? 0 = some v ∨ d.value? 0 = none ∧ v.contents?.isSome := by
  cases d with
  | array =>
    cases limit with
    | zero => cases h
    | succ =>
      obtain ⟨values, _, rfl⟩ := Option.map_eq_some_iff.mp h
      exact .inr ⟨rfl, rfl⟩
  | object =>
    cases limit with
    | zero => cases h
    | succ =>
      obtain ⟨entries, _, rfl⟩ := Option.map_eq_some_iff.mp h
      exact .inr ⟨rfl, rfl⟩
  | _ => exact .inl h

/-- Only null has the value null. -/
theorem ne_null (h : d.Denotes limit v) (given : d ≠ .null) : v ≠ .null := by
  rintro rfl
  cases d with
  | null => exact given rfl
  | bool => cases h
  | number | string =>
    obtain ⟨_, _, wrong⟩ := Option.map_eq_some_iff.mp h
    cases wrong
  | array | object =>
    cases limit with
    | zero => cases h
    | succ =>
      obtain ⟨_, _, wrong⟩ := Option.map_eq_some_iff.mp h
      cases wrong

end Document

end Bindery.Json
