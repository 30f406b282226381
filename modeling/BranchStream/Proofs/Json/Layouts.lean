import BranchStream.Json.Coded
import Mathlib.Data.List.Nodup
import Mathlib.Logic.Relation

namespace BranchStream

/-- Where records stand in the JSON form of a type, with the names of their fields in order. -/
inductive Layout where
  | plain
  | map
  | list (item : Layout)
  | object (fields : List (String × Layout))
  | record (fields : List (String × Layout))
  /-- An object whose one key names the kind of what it holds. -/
  | choice (kinds : List (String × Layout))

/-- The layout accounts for every object inside a value. -/
inductive Layout.Describes : Layout → Json → Prop
  | scalar {j : Json} (harray : ∀ items, j ≠ .array items)
    (hobject : ∀ entries, j ≠ .object entries) : Describes .plain j
  | array {items : List Json} (h : ∀ j ∈ items, Describes .plain j) :
    Describes .plain (.array items)
  | map {entries : List (String × Json)} (h : ∀ p ∈ entries, Describes .plain p.2) :
    Describes .map (.object entries)
  | list {item : Layout} {items : List Json} (h : ∀ j ∈ items, Describes item j) :
    Describes (.list item) (.array items)
  | object {fields : List (String × Layout)} {entries : List (String × Json)}
    (hnames : entries.map Prod.fst = fields.map Prod.fst)
    (h : ∀ p ∈ fields.zip entries, Describes p.1.2 p.2.2) :
    Describes (.object fields) (.object entries)
  | record {fields : List (String × Layout)} {entries : List (String × Json)}
    (h : Describes (.object fields) (.object entries)) :
    Describes (.record fields) (.object entries)
  | choice {kinds : List (String × Layout)} {kind : String} {l : Layout} {j : Json}
    (hkind : (kind, l) ∈ kinds) (h : Describes l j) :
    Describes (.choice kinds) (.object [(kind, j)])

namespace Json

/-- One change to the way a value is written, in one of the records that the layout names. -/
inductive Rearranged : Layout → Json → Json → Prop
  | permute {fields : List (String × Layout)} {entries entries' : List (String × Json)}
    (hkeys : (entries.map Prod.fst).Nodup) (h : entries.Perm entries') :
    Rearranged (.object fields) (.object entries) (.object entries')
  | insert {fields : List (String × Layout)} {before after : List (String × Json)} {key : String}
    {j : Json} (hkey : key ∉ fields.map Prod.fst) :
    Rearranged (.object fields) (.object (before ++ after)) (.object (before ++ (key, j) :: after))
  | field {fields : List (String × Layout)} {before after : List (String × Json)} {name : String}
    {l : Layout} {j j' : Json} (hfield : (name, l) ∈ fields) (h : Rearranged l j j') :
    Rearranged (.object fields) (.object (before ++ (name, j) :: after))
      (.object (before ++ (name, j') :: after))
  | ofObject {fields : List (String × Layout)} {j j' : Json}
    (h : Rearranged (.object fields) j j') : Rearranged (.record fields) j j'
  /-- The fields must all be there and in their order. -/
  | array {fields : List (String × Layout)} {entries : List (String × Json)}
    (hnames : entries.map Prod.fst = fields.map Prod.fst) :
    Rearranged (.record fields) (.object entries) (.array (entries.map Prod.snd))
  | place {fields : List (String × Layout)} {before after : List Json} {name : String} {l : Layout}
    {j j' : Json} (hfield : fields[before.length]? = some (name, l)) (h : Rearranged l j j') :
    Rearranged (.record fields) (.array (before ++ j :: after)) (.array (before ++ j' :: after))
  | item {l : Layout} {before after : List Json} {j j' : Json} (h : Rearranged l j j') :
    Rearranged (.list l) (.array (before ++ j :: after)) (.array (before ++ j' :: after))
  | choice {kinds : List (String × Layout)} {kind : String} {l : Layout} {j j' : Json}
    (hkind : (kind, l) ∈ kinds) (h : Rearranged l j j') :
    Rearranged (.choice kinds) (.object [(kind, j)]) (.object [(kind, j')])

/-- Any number of changes, there and back. -/
abbrev Equivalent (l : Layout) : Json → Json → Prop := Relation.EqvGen (Rearranged l)

variable {γ : Type} {fields : List (String × Layout)} {j j' : Json} {place : Nat} {name : String}
  {l : Layout}

theorem lookup_eq_some_iff {entries : List (String × Json)} (hkeys : (entries.map Prod.fst).Nodup) :
    entries.lookup name = some j ↔ (name, j) ∈ entries := by
  induction entries with
  | nil => simp
  | cons entry entries ih =>
    obtain ⟨key, v⟩ := entry
    obtain ⟨hkey, hkeys⟩ := List.nodup_cons.mp hkeys
    rw [List.lookup_cons, List.mem_cons, Prod.mk.injEq]
    by_cases hname : name = key
    · subst hname
      have habsent : (name, j) ∉ entries := fun hmem ↦
        hkey (List.mem_map.mpr ⟨_, hmem, rfl⟩)
      simp [habsent, eq_comm]
    · rw [beq_eq_false_iff_ne.mpr hname, ih hkeys]
      simp [hname]

theorem Rearranged.map_field?_object {d : Json → γ} (hnames : (fields.map Prod.fst).Nodup)
    (hfield : (name, l) ∈ fields) (hd : ∀ {v v'}, Rearranged l v v' → d v = d v')
    (h : Rearranged (.object fields) j j') :
    (j.field? place name).map d = (j'.field? place name).map d := by
  cases h with
  | @permute _ entries entries' hkeys h =>
    have hkeys' : (entries'.map Prod.fst).Nodup := (h.map Prod.fst).nodup_iff.mp hkeys
    have hlookup : entries.lookup name = entries'.lookup name := by
      ext v
      rw [lookup_eq_some_iff hkeys, lookup_eq_some_iff hkeys', h.mem_iff]
    rw [field?, field?, hlookup]
  | @insert _ before after key v hkey =>
    have hne : (name == key) = false := by
      rw [beq_eq_false_iff_ne]
      rintro rfl
      exact hkey (List.mem_map_of_mem hfield)
    rw [field?, field?, List.lookup_append, List.lookup_append, List.lookup_cons, hne]
  | @field _ before after key l' v v' hkey h =>
    rw [field?, field?, List.lookup_append, List.lookup_append, List.lookup_cons, List.lookup_cons]
    by_cases hname : name = key
    · subst hname
      obtain rfl : l = l' := congrArg Prod.snd (List.inj_on_of_nodup_map hnames hfield hkey rfl)
      cases before.lookup name with
      | some _ => rfl
      | none => simpa using hd h
    · rw [beq_eq_false_iff_ne.mpr hname]

theorem Rearranged.map_field? {d : Json → γ} (hnames : (fields.map Prod.fst).Nodup)
    (hfield : fields[place]? = some (name, l)) (hd : ∀ {v v'}, Rearranged l v v' → d v = d v')
    (h : Rearranged (.record fields) j j') :
    (j.field? place name).map d = (j'.field? place name).map d := by
  cases h with
  | ofObject h => exact h.map_field?_object hnames (List.mem_of_getElem? hfield) hd
  | @array _ entries hentries =>
    have hkey : entries[place]?.map Prod.fst = some name := by
      rw [← List.getElem?_map, hentries, List.getElem?_map, hfield, Option.map_some]
    obtain ⟨⟨key, v⟩, hentry, rfl⟩ := Option.map_eq_some_iff.mp hkey
    have hlookup := (lookup_eq_some_iff (hentries ▸ hnames)).mpr (List.mem_of_getElem? hentry)
    rw [field?, field?, hlookup, List.getElem?_map, hentry]
    rfl
  | @place _ before after key l' v v' hkey h =>
    rw [field?, field?]
    rcases Nat.lt_trichotomy place before.length with hlt | rfl | hlt
    · rw [List.getElem?_append_left hlt, List.getElem?_append_left hlt]
    · obtain ⟨-, rfl⟩ := Prod.mk.inj (Option.some.inj (hfield.symm.trans hkey))
      simpa using hd h
    · obtain ⟨k, rfl⟩ := Nat.exists_eq_add_of_lt hlt
      simp [List.getElem?_append_right, Nat.add_assoc]

theorem Rearranged.isRecord_eq (h : Rearranged (.record fields) j j') (size : Nat)
    (hsize : fields.length = size) : j.isRecord size = j'.isRecord size := by
  cases h with
  | ofObject h => cases h <;> rfl
  | @array _ entries hentries =>
    have hlength : entries.length = fields.length := by
      simpa using congrArg List.length hentries
    simp [isRecord, hlength, hsize]
  | place hfield h => simp [isRecord]

theorem Rearranged.exists_entries (h : Rearranged (.object fields) j j') :
    ∃ entries entries', j = .object entries ∧ j' = .object entries' := by
  cases h <;> exact ⟨_, _, rfl, rfl⟩

theorem Rearranged.field?_eq (h : Rearranged (.record fields) j j')
    (hnames : (fields.map Prod.fst).Nodup) (place : Nat) (name : String)
    (hfield : fields[place]? = some (name, .plain)) :
    j.field? place name = j'.field? place name := by
  have hmap := h.map_field? hnames hfield (d := id) nofun
  rwa [Option.map_id, id, id] at hmap

end Json

/-- A type whose values are read back whatever the way they are written. -/
class Portable (α : Type) [Coded α] where
  layout : Layout
  /-- Whether a value has a JSON form of its own: infinities have none, for example. -/
  Writable : α → Prop
  describes (a : α) : layout.Describes (encode a)
  decode?_encode {a : α} : Writable a → decode? (encode a) = some a
  decode?_eq {j j' : Json} : j.Rearranged layout j' → (decode? j : Option α) = decode? j'

open Portable (layout Writable)

/-- A value is read back from what is written of it, also after any changes to the records in it. -/
structure Restored {α : Type} [Coded α] [Portable α] (a : α) : Prop where
  described : (layout α).Describes (encode a)
  read : decode? (encode a) = some a
  rearranged : ∀ j, Json.Equivalent (layout α) (encode a) j → decode? j = some a

namespace Portable

variable {α : Type} [Coded α] [Portable α]

theorem decode?_eq_of_equivalent {j j' : Json} (h : Json.Equivalent (layout α) j j') :
    (decode? j : Option α) = decode? j' := by
  induction h with
  | rel _ _ h => exact decode?_eq h
  | refl => rfl
  | symm _ _ _ ih => exact ih.symm
  | trans _ _ _ _ _ ih ih' => exact ih.trans ih'

theorem restored {a : α} (h : Writable a) : Restored a where
  described := describes a
  read := decode?_encode h
  rearranged _ hj := (decode?_eq_of_equivalent hj).symm.trans (decode?_encode h)

end Portable

namespace Json

variable {β : Type} [Coded β] {fields : List (String × Layout)} {j j' : Json} {place : Nat}
  {name : String}

theorem required_eq_join (j : Json) (place : Nat) (name : String) :
    (j.required place name : Option β) = ((j.field? place name).map decode?).join := by
  rw [required]
  cases j.field? place name <;> rfl

theorem optional_eq_getD (j : Json) (place : Nat) (name : String) (missing : β) :
    j.optional place name missing = ((j.field? place name).map decode?).getD (some missing) := by
  rw [optional]
  cases j.field? place name <;> rfl

variable [Portable β]

theorem required_encode {b : β} (j : Json) (place : Nat) (name : String)
    (hfield : j.field? place name = some (encode b)) (h : Portable.Writable b) :
    j.required place name = some b := by
  rw [required, hfield, Option.bind_some, Portable.decode?_encode h]

theorem optional_encode {b : β} (j : Json) (place : Nat) (name : String)
    (hfield : j.field? place name = some (encode b)) (h : Portable.Writable b) (missing : β) :
    j.optional place name missing = some b := by
  rw [optional, hfield]
  exact Portable.decode?_encode h

theorem Rearranged.required_eq (h : Rearranged (.record fields) j j')
    (hnames : (fields.map Prod.fst).Nodup) (place : Nat) (name : String)
    (hfield : fields[place]? = some (name, layout β)) :
    (j.required place name : Option β) = j'.required place name := by
  rw [required_eq_join, required_eq_join, h.map_field? hnames hfield Portable.decode?_eq]

theorem Rearranged.optional_eq (h : Rearranged (.record fields) j j')
    (hnames : (fields.map Prod.fst).Nodup) (place : Nat) (name : String)
    (hfield : fields[place]? = some (name, layout β)) (missing : β) :
    j.optional place name missing = j'.optional place name missing := by
  rw [optional_eq_getD, optional_eq_getD, h.map_field? hnames hfield Portable.decode?_eq]

end Json

end BranchStream
