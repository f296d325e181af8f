import CogMachine.Machine.Transient
import CogMachine.Proofs.Lockstep
import CogMachine.Proofs.Redrafting

/-!
# Registration

A host registers its verbs one by one, and may register more of them under scripts that it already has.
A script holds ids, which the assembler took from the table as it was then.

- `VerbTable.NumberedBy`: names get their ids in the order in which they first came, and ids and names are
  found from one another.
- `IndexedVerbTable` is a table that is changed in place and has an index from names to ids, which registration
  trusts. `InStep` is why it can: up to `2^31` names, it answers as the plain table does (`presents_register?`).
- `idOf?_register`: further registrations change no id. What assembled before still does, to the same
  script, since assembling only gains from a name that resolves (`assemble_mono`).
- `get_register`: registrations under new names change no verb, so both engines go on in lockstep with
  themselves, except where a call found no verb before.
-/

namespace CogMachine

/-! ## Tables of registrations -/

namespace VerbTable

variable {H : Type} {t : VerbTable H} {rs rs' : List (String × H)} {name : String} {handler : H}
variable {id : VerbId} {v : Verb H} {i : Nat}

/-- **Registrations,** one after the other. -/
def register (t : VerbTable H) (rs : List (String × H)) : VerbTable H :=
  rs.foldl (fun t r => t.add r.1 r.2) t

/-- The table of these registrations. -/
def of (rs : List (String × H)) : VerbTable H := empty.register rs

theorem register_concat (t : VerbTable H) (rs : List (String × H)) (r : String × H) :
    t.register (rs ++ [r]) = (t.register rs).add r.1 r.2 := by
  rw [register, List.foldl_append]
  rfl

theorem index?_eq (t : VerbTable H) (name : String) : t.index? name = t.names.idxOf? name := by
  rw [names, List.idxOf?, List.findIdx?_map]
  rfl

theorem index?_eq_none : t.index? name = none ↔ name ∉ t.names := by
  rw [index?_eq, List.idxOf?_eq_none_iff]

theorem names_of_index? (h : t.index? name = some i) : t.names[i]? = some name := by
  rw [index?_eq, List.idxOf?_eq_some_iff] at h
  obtain ⟨hi, hname, -⟩ := h
  rw [List.getElem?_eq_getElem hi, hname]

theorem index?_of_names (hd : t.names.Nodup) (h : t.names[i]? = some name) :
    t.index? name = some i := by
  obtain ⟨hi, hname⟩ := List.getElem?_eq_some_iff.mp h
  rw [index?_eq, List.idxOf?_eq_some_iff]
  refine ⟨hi, hname, ?_⟩
  intro j hj hsame
  have hji : j = i := (hd.getElem_inj_iff).mp (hsame.trans hname.symm)
  omega

theorem names_getElem? (t : VerbTable H) (i : Nat) : t.names[i]? = t.verbs[i]?.map (·.name) :=
  List.getElem?_map

theorem names_of_get (h : t.get id = .ok v) :
    0 ≤ id.number.toInt ∧ t.names[id.number.toInt.toNat]? = some v.name := by
  obtain ⟨hnonneg, hv⟩ := get_eq_ok h
  refine ⟨hnonneg, ?_⟩
  rw [names_getElem?, hv]
  rfl

/-- Which verb has a name is told by its position. -/
theorem name_eq_iff (hd : t.names.Nodup) (hi : t.index? name = some i) (hv : t.get id = .ok v) :
    v.name = name ↔ id.number.toInt = i := by
  obtain ⟨hnonneg, hname⟩ := names_of_get hv
  constructor
  · rintro rfl
    rw [index?_of_names hd hname, Option.some.injEq] at hi
    omega
  · intro hid
    have hnat : id.number.toInt.toNat = i := by omega
    rw [hnat, names_of_index? hi, Option.some.injEq] at hname
    exact hname.symm

theorem names_add_of_mem (h : name ∈ t.names) : (t.add name handler).names = t.names := by
  cases hi : t.index? name with
  | none => exact absurd h (index?_eq_none.mp hi)
  | some i =>
      apply List.ext_getElem?
      intro j
      rw [names_getElem?, names_getElem?]
      simp only [add, hi, List.getElem?_modify]
      cases t.verbs[j]? with
      | none => rfl
      | some w => split <;> rfl

theorem names_add_of_not_mem (h : name ∉ t.names) :
    (t.add name handler).names = t.names ++ [name] := by
  simp only [names, add, index?_eq_none.mpr h, List.map_append, List.map_cons, List.map_nil]

theorem nodup_add (hd : t.names.Nodup) : (t.add name handler).names.Nodup := by
  by_cases h : name ∈ t.names
  · rwa [names_add_of_mem h]
  · rw [names_add_of_not_mem h]
    refine List.nodup_append.mpr ⟨hd, List.nodup_singleton name, ?_⟩
    intro a ha b hb hab
    rw [List.mem_singleton] at hb
    exact h (hb ▸ hab ▸ ha)

theorem nodup_register (hd : t.names.Nodup) (rs : List (String × H)) : (t.register rs).names.Nodup := by
  induction rs using List.reverseRecOn with
  | nil => exact hd
  | append_singleton rs r ih =>
      rw [register_concat]
      exact nodup_add ih

/-- A table keeps its names where they are; others come behind them. -/
theorem names_register_of_some (h : t.names[i]? = some name) (rs : List (String × H)) :
    (t.register rs).names[i]? = some name := by
  induction rs using List.reverseRecOn with
  | nil => exact h
  | append_singleton rs r ih =>
      rw [register_concat]
      by_cases hmem : r.1 ∈ (t.register rs).names
      · rwa [names_add_of_mem hmem]
      · obtain ⟨hi, -⟩ := List.getElem?_eq_some_iff.mp ih
        rw [names_add_of_not_mem hmem, List.getElem?_append_left hi, ih]

/-- **First registrations** give the order of the names. -/
theorem names_of (rs : List (String × H)) : (of rs).names = (rs.map Prod.fst).eraseDups := by
  unfold of
  induction rs using List.reverseRecOn with
  | nil => rfl
  | append_singleton rs r ih =>
      rw [register_concat, List.map_append, List.eraseDups_append]
      by_cases hmem : r.1 ∈ rs.map Prod.fst
      · have hknown : r.1 ∈ (empty.register rs).names := by
          rw [ih]
          exact List.mem_eraseDups.mpr hmem
        have hgone : ([r].map Prod.fst).removeAll (rs.map Prod.fst) = [] := by
          simp [List.removeAll, hmem]
        rw [names_add_of_mem hknown, ih, hgone]
        exact (List.append_nil _).symm
      · have hunknown : r.1 ∉ (empty.register rs).names := by
          rw [ih]
          exact fun h => hmem (List.mem_eraseDups.mp h)
        have hstays : ([r].map Prod.fst).removeAll (rs.map Prod.fst) = [r.1] := by
          simp [List.removeAll, hmem]
        rw [names_add_of_not_mem hunknown, ih, hstays]
        rfl

/-! ## Ids -/

/-- **Numbering.** The verbs have these names in the order of their ids, and ids and names are found from
one another. An id has 32 bits, so by id only as many verbs are found as it can count. -/
structure NumberedBy (t : VerbTable H) (order : List String) : Prop where
  names : t.names = order
  distinct : order.Nodup
  idOf? : ∀ i name, order[i]? = some name → t.idOf? name = some ⟨Int32.ofNat i⟩
  unknown : ∀ name, name ∉ order → t.idOf? name = none
  /-- The verb with the id of a name has that name. -/
  get : ∀ i name, order[i]? = some name → i < 2147483648 →
    ∃ v, t.get ⟨Int32.ofNat i⟩ = .ok v ∧ v.name = name
  /-- The id of the name of a verb is its id. -/
  idOf?_get : ∀ id v, t.get id = .ok v → t.idOf? v.name = some id

theorem idOf?_of_names (hd : t.names.Nodup) (h : t.names[i]? = some name) :
    t.idOf? name = some ⟨Int32.ofNat i⟩ := by
  rw [idOf?, index?_of_names hd h]
  rfl

theorem names_of_idOf? (h : t.idOf? name = some id) :
    ∃ i, t.names[i]? = some name ∧ id = ⟨Int32.ofNat i⟩ := by
  obtain ⟨i, hi, rfl⟩ := Option.map_eq_some_iff.mp h
  exact ⟨i, names_of_index? hi, rfl⟩

theorem get_of_names (h : t.names[i]? = some name) (hi : i < 2147483648) :
    ∃ v, t.get ⟨Int32.ofNat i⟩ = .ok v ∧ v.name = name := by
  rw [names_getElem?] at h
  obtain ⟨v, hv, hname⟩ := Option.map_eq_some_iff.mp h
  have hint : (Int32.ofNat i).toInt = i := Int32.toInt_ofNat_of_lt hi
  have hnonneg : ¬ (Int32.ofNat i).toInt < 0 := by omega
  have hnat : (Int32.ofNat i).toInt.toNat = i := by omega
  refine ⟨v, ?_, hname⟩
  simp only [get_eq, if_neg hnonneg, hnat, hv]

theorem idOf?_of_get (hd : t.names.Nodup) (h : t.get id = .ok v) : t.idOf? v.name = some id := by
  obtain ⟨hnonneg, hname⟩ := names_of_get h
  have hbound := Int32.toInt_lt id.number
  have hnumber : Int32.ofNat id.number.toInt.toNat = id.number := by
    rw [← Int32.toInt_inj, Int32.toInt_ofNat_of_lt (by omega)]
    omega
  rw [idOf?_of_names hd hname, hnumber]

theorem numberedBy (hd : t.names.Nodup) : t.NumberedBy t.names where
  names := rfl
  distinct := hd
  idOf? _ _ h := idOf?_of_names hd h
  unknown name h := by
    rw [VerbTable.idOf?, index?_eq_none.mpr h]
    rfl
  get _ _ h hi := get_of_names h hi
  idOf?_get _ _ h := idOf?_of_get hd h

theorem nodup_of (rs : List (String × H)) : (of rs).names.Nodup := by
  apply nodup_register
  exact List.nodup_nil

/-- **Ids stay.** -/
theorem idOf?_register (hd : t.names.Nodup) (h : t.idOf? name = some id) (rs : List (String × H)) :
    (t.register rs).idOf? name = some id := by
  obtain ⟨i, hi, rfl⟩ := names_of_idOf? h
  exact idOf?_of_names (nodup_register hd rs) (names_register_of_some hi rs)

/-! ## Handlers -/

/-- Ids are told by the names. -/
theorem idOf?_add_of_mem (h : name ∈ t.names) (handler : H) : (t.add name handler).idOf? = t.idOf? := by
  funext n
  rw [idOf?, idOf?, index?_eq, index?_eq, names_add_of_mem h]

/-- A new name has the id behind all others. -/
theorem idOf?_add_of_not_mem (h : name ∉ t.names) (handler : H) (other : String) :
    (t.add name handler).idOf? other = if name = other then some ⟨Int32.ofNat t.size⟩ else t.idOf? other := by
  have hi := index?_eq_none.mpr h
  have hverbs : (t.add name handler).verbs = t.verbs ++ [⟨name, handler⟩] := by simp only [add, hi]
  rw [idOf?, index?, hverbs, List.findIdx?_append]
  by_cases hother : name = other
  · subst hother
    rw [show t.verbs.findIdx? (·.name == name) = none from hi]
    simp [size]
  · simp [hother, idOf?, index?]

/-- **Registering again** replaces the handler of the verb with that name. -/
theorem get_add_of_mem (hd : t.names.Nodup) (h : name ∈ t.names) (handler : H) (id : VerbId) :
    (t.add name handler).get id =
      (t.get id).map fun v => if v.name = name then { v with handler } else v := by
  obtain ⟨i, hi⟩ : ∃ i, t.index? name = some i := by
    rw [← Option.isSome_iff_exists, Option.isSome_iff_ne_none]
    exact fun hnone => index?_eq_none.mp hnone h
  by_cases hid : id.number.toInt = i
  · rw [get_add_self handler hi hid]
    cases hv : t.get id with
    | error cause => rfl
    | ok v =>
        have hname := (name_eq_iff hd hi hv).mpr hid
        simp only [Except.map, if_pos hname]
  · rw [get_add_of_ne handler hi hid]
    cases hv : t.get id with
    | error cause => rfl
    | ok v =>
        have hname := mt (name_eq_iff hd hi hv).mp hid
        simp only [Except.map, if_neg hname]

/-- **A further verb** leaves those that are there. -/
theorem get_add_of_not_mem (h : name ∉ t.names) (handler : H) (hv : t.get id = .ok v) :
    (t.add name handler).get id = .ok v := by
  obtain ⟨hnonneg, hverb⟩ := get_eq_ok hv
  obtain ⟨hi, -⟩ := List.getElem?_eq_some_iff.mp hverb
  rw [get_eq, if_neg (by omega)]
  simp only [add, index?_eq_none.mpr h, List.getElem?_append_left hi, hverb]

/-- A verb stays until its own name is registered again. -/
theorem get_add_of_name_ne (hd : t.names.Nodup) (hv : t.get id = .ok v) (hne : v.name ≠ name)
    (handler : H) : (t.add name handler).get id = .ok v := by
  by_cases h : name ∈ t.names
  · rw [get_add_of_mem hd h, hv, Except.map, if_neg hne]
  · exact get_add_of_not_mem h handler hv

/-- **Verbs stay** under registrations of other names. -/
theorem get_register (hd : t.names.Nodup) (hv : t.get id = .ok v) (hnew : ∀ r ∈ rs, r.1 ≠ v.name) :
    (t.register rs).get id = .ok v := by
  induction rs using List.reverseRecOn with
  | nil => exact hv
  | append_singleton rs r ih =>
      obtain ⟨hrs, hr⟩ := List.forall_mem_append.mp hnew
      rw [register_concat]
      apply get_add_of_name_ne (nodup_register hd rs) (ih hrs)
      exact (hr r List.mem_cons_self).symm

/-! ## Sizes -/

theorem size_eq (t : VerbTable H) : t.size = t.names.length := by
  rw [size, names, List.length_map]

theorem size_le_size_add (t : VerbTable H) (name : String) (handler : H) :
    t.size ≤ (t.add name handler).size := by
  rw [size_eq, size_eq]
  by_cases h : name ∈ t.names
  · rw [names_add_of_mem h]
  · rw [names_add_of_not_mem h, List.length_append]
    omega

theorem size_le_size_register (t : VerbTable H) (rs : List (String × H)) : t.size ≤ (t.register rs).size := by
  induction rs using List.reverseRecOn with
  | nil => exact Nat.le_refl _
  | append_singleton rs r ih =>
      rw [register_concat]
      exact Nat.le_trans ih (size_le_size_add _ r.1 r.2)

end VerbTable

/-! ## Tables with an index -/

/-- **A table that is changed in place.** Its index has the id of each name. -/
structure IndexedVerbTable (H : Type) where
  verbs : Array (Verb H)
  ids : String → Option VerbId

namespace IndexedVerbTable

variable {H : Type} {x : IndexedVerbTable H} {t : VerbTable H} {name : String} {id : VerbId}

def empty : IndexedVerbTable H := ⟨#[], fun _ => none⟩

/-- The place of an id is an unsigned number of 64 bits. -/
def place (id : VerbId) : Nat := (id.number.toInt % 0x10000000000000000).toNat

/-- **Registration** trusts the index: if it has an id whose place is outside the table, there is no answer. -/
def add? (x : IndexedVerbTable H) (name : String) (handler : H) : Option (VerbId × IndexedVerbTable H) :=
  match x.ids name with
  | some id =>
    if h : place id < x.verbs.size then
      some (id, { x with verbs := x.verbs.set (place id) { x.verbs[place id] with handler } })
    else none
  | none =>
    let id : VerbId := ⟨Int32.ofNat x.verbs.size⟩
    some (id, ⟨x.verbs.push ⟨name, handler⟩, fun other => if name = other then some id else x.ids other⟩)

/-- **Registrations,** one after the other, and the ids that they answer. -/
def register? (x : IndexedVerbTable H) : List (String × H) → Option (List VerbId × IndexedVerbTable H)
  | [] => some ([], x)
  | r :: rs => do
    let (id, next) ← x.add? r.1 r.2
    let (ids, last) ← next.register? rs
    return (id :: ids, last)

def get (x : IndexedVerbTable H) (id : VerbId) : Except Fault.Cause (Verb H) :=
  match if id.number < 0 then none else x.verbs[id.number.toInt.toNat]? with
  | some v => .ok v
  | none => .error (.unknownVerb id.number)

def idOf? (x : IndexedVerbTable H) (name : String) : Option VerbId := x.ids name

def size (x : IndexedVerbTable H) : Nat := x.verbs.size

def names (x : IndexedVerbTable H) : List String := x.verbs.toList.map (·.name)

/-- **The index is in step** with the verbs, and these are those of `t`. -/
structure InStep (x : IndexedVerbTable H) (t : VerbTable H) : Prop where
  distinct : t.names.Nodup
  verbs : x.verbs.toList = t.verbs
  ids : ∀ name, x.ids name = t.idOf? name

theorem inStep_empty : InStep (empty : IndexedVerbTable H) .empty := ⟨List.nodup_nil, rfl, fun _ => rfl⟩

theorem InStep.size_eq (h : InStep x t) : x.verbs.size = t.verbs.length := by
  rw [← h.verbs, Array.length_toList]

/-- An id has 32 bits and a sign, so it gives back the first `2^31` places. -/
theorem place_ofNat {i : Nat} (hi : i < 2147483648) : place ⟨Int32.ofNat i⟩ = i := by
  rw [place, Int32.toInt_ofNat_of_lt hi]
  omega

/-- A name that is known under a place of the table. -/
theorem add?_of_some {i : Nat} (hids : x.ids name = some id) (hplace : place id = i)
    (hinside : i < x.verbs.size) (handler : H) :
    x.add? name handler = some (id, { x with verbs := x.verbs.modify i fun v => { v with handler } }) := by
  subst hplace
  simp only [add?, hids, dif_pos hinside]
  congr 3
  apply Array.ext_getElem?
  intro j
  rw [Array.getElem?_set, Array.getElem?_modify]
  by_cases hj : place id = j
  · subst hj
    simp [hinside]
  · simp [hj]

/-- **One registration.** It is answered by the id that the name has in the plain table, and the two stay in
step. -/
theorem InStep.add (h : InStep x t) (hroom : t.size ≤ 2147483648) (name : String) (handler : H) :
    ∃ id x', x.add? name handler = some (id, x') ∧ (t.add name handler).idOf? name = some id ∧
      InStep x' (t.add name handler) := by
  have hids := h.ids name
  rw [VerbTable.idOf?] at hids
  cases hi : t.index? name with
  | some i =>
      rw [hi, Option.map_some] at hids
      have hname := VerbTable.names_of_index? hi
      have hknown : name ∈ t.names := List.mem_of_getElem? hname
      have hlt : i < t.size := by
        rw [VerbTable.size_eq]
        exact (List.getElem?_eq_some_iff.mp hname).1
      have hinside : i < x.verbs.size := h.size_eq ▸ hlt
      refine ⟨_, _, add?_of_some hids (place_ofNat (Nat.lt_of_lt_of_le hlt hroom)) hinside handler, ?_,
        VerbTable.nodup_add h.distinct, ?_, ?_⟩
      · rw [VerbTable.idOf?_add_of_mem hknown, VerbTable.idOf?, hi]
        rfl
      · rw [Array.toList_modify, h.verbs, VerbTable.add, hi]
      · intro other
        rw [VerbTable.idOf?_add_of_mem hknown]
        exact h.ids other
  | none =>
      rw [hi, Option.map_none] at hids
      have hnew : name ∉ t.names := VerbTable.index?_eq_none.mp hi
      have hadd : x.add? name handler = some (⟨Int32.ofNat x.verbs.size⟩, ⟨x.verbs.push ⟨name, handler⟩,
          fun other => if name = other then some ⟨Int32.ofNat x.verbs.size⟩ else x.ids other⟩) := by
        simp only [add?, hids]
      refine ⟨_, _, hadd, ?_, VerbTable.nodup_add h.distinct, ?_, ?_⟩
      · rw [VerbTable.idOf?_add_of_not_mem hnew, if_pos rfl, h.size_eq]
        rfl
      · rw [Array.toList_push, h.verbs, VerbTable.add, hi]
      · intro other
        rw [VerbTable.idOf?_add_of_not_mem hnew, ← h.ids, VerbTable.size, ← h.size_eq]

/-- **All registrations.** The ids that they answer are those that the names have at the end. -/
theorem InStep.register (h : InStep x t) (rs : List (String × H)) (hroom : (t.register rs).size ≤ 2147483648) :
    ∃ ids x', x.register? rs = some (ids, x') ∧
      ids.map some = rs.map (fun r => (t.register rs).idOf? r.1) ∧ InStep x' (t.register rs) := by
  induction rs generalizing x t with
  | nil => exact ⟨[], x, rfl, rfl, h⟩
  | cons r rs ih =>
      have hnext : (t.add r.1 r.2).size ≤ 2147483648 :=
        Nat.le_trans (VerbTable.size_le_size_register _ rs) hroom
      have hsize := Nat.le_trans (VerbTable.size_le_size_add t r.1 r.2) hnext
      obtain ⟨id, next, hadd, hid, hstep⟩ := h.add hsize r.1 r.2
      obtain ⟨ids, last, hregister, hids, hlast⟩ := ih hstep hroom
      refine ⟨id :: ids, last, ?_, ?_, hlast⟩
      · rw [register?, hadd]
        simp only [Option.bind_eq_bind, Option.bind_some, hregister]
        rfl
      · rw [List.map_cons, List.map_cons, hids]
        congr 1
        exact (VerbTable.idOf?_register hstep.distinct hid rs).symm

/-- **What an indexed table presents:** it is the plain one. -/
structure Presents (x : IndexedVerbTable H) (t : VerbTable H) : Prop where
  size : x.size = t.size
  names : x.names = t.names
  idOf? : ∀ name, x.idOf? name = t.idOf? name
  get : ∀ id, x.get id = t.get id

theorem InStep.presents (h : InStep x t) : Presents x t where
  size := h.size_eq
  names := by rw [IndexedVerbTable.names, h.verbs, VerbTable.names]
  idOf? := h.ids
  get id := by
    have hat : x.verbs[id.number.toInt.toNat]? = t.verbs[id.number.toInt.toNat]? := by
      rw [← h.verbs, Array.getElem?_toList]
    by_cases hneg : id.number < 0
    · simp only [IndexedVerbTable.get, VerbTable.get, if_pos hneg]
    · cases hv : t.verbs[id.number.toInt.toNat]? with
      | none | some v => simp only [IndexedVerbTable.get, VerbTable.get, if_neg hneg, hat, hv]

/-- **Registrations keep the index in step.** As long as there are no more than `2^31` names, a table with an
index takes any registrations without ever going to a place outside. It answers each with the id of its name, and
is in the end the plain table of these registrations. -/
theorem presents_register? (rs : List (String × H)) (hroom : (VerbTable.of rs).size ≤ 2147483648) :
    ∃ ids x, (empty : IndexedVerbTable H).register? rs = some (ids, x) ∧
      ids.map some = rs.map (fun r => (VerbTable.of rs).idOf? r.1) ∧ x.Presents (VerbTable.of rs) := by
  obtain ⟨ids, x, hregister, hids, hstep⟩ := inStep_empty.register rs hroom
  exact ⟨ids, x, hregister, hids, hstep.presents⟩

/-- A name that is registered again keeps its id. -/
example : ((empty : IndexedVerbTable Nat).register? [("print", 1), ("suspend", 2), ("print", 3)]).map Prod.fst =
    some [⟨0⟩, ⟨1⟩, ⟨0⟩] := by decide

end IndexedVerbTable

/-! ## Assembling under more names -/

namespace Assembly

/-- **More names resolve,** and those that did resolve to what they did. -/
def Resolves (verbs verbs' : String → Option VerbId) : Prop :=
  ∀ name id, verbs name = some id → verbs' name = some id

section Resolving

variable {t : SymbolTable} {verbs verbs' : String → Option VerbId}

theorem verbOperand_mono (hr : Resolves verbs verbs') {line : Nat} {cs : List Char} {id : VerbId}
    (h : verbOperand verbs line cs = .ok id) : verbOperand verbs' line cs = .ok id := by
  unfold verbOperand at h ⊢
  split at h
  · cases h
  · exact h
  · split at h
    · rename_i v hv
      rw [hr _ _ hv]
      exact h
    · cases h

theorem instruction_mono (hr : Resolves verbs verbs') {d d' : Draft} {line : Nat} {cs : List Char}
    (h : instruction t verbs d line cs = .ok d') : instruction t verbs' d line cs = .ok d' := by
  rw [instruction_eq] at h ⊢
  cases hm : mnemonic? cs with
  | none =>
      rw [hm] at h
      cases h
  | some m =>
      rw [hm] at h
      cases m with
      | call keeps =>
          obtain ⟨id, hid, rfl⟩ := Attempt.map_eq_ok h
          show (verbOperand verbs' line (operand cs)).map _ = _
          rw [verbOperand_mono hr hid]
          rfl
      | _ => exact h

theorem codeLine_mono (hr : Resolves verbs verbs') {d d' : Draft} {line : Line}
    (h : codeLine t verbs d line = .ok d') : codeLine t verbs' d line = .ok d' := by
  unfold codeLine at h ⊢
  split at h
  · exact instruction_mono hr h
  · rename_i name rest _
    obtain ⟨defined, hdefined, h⟩ := Attempt.bind_eq_ok h
    rw [hdefined]
    by_cases hbody : (Text.trim rest).isEmpty
    · simp only [if_pos hbody] at h
      exact (if_pos hbody).trans h
    · simp only [if_neg hbody] at h
      exact (if_neg hbody).trans (instruction_mono hr h)

theorem takeLine_mono (hr : Resolves verbs verbs') {p p' : Progress} {line : Line}
    (h : takeLine t verbs p line = .ok p') : takeLine t verbs' p line = .ok p' := by
  unfold takeLine at h ⊢
  split at h
  · obtain ⟨d, hd, rfl⟩ := Attempt.map_eq_ok h
    rw [codeLine_mono hr hd]
    rfl
  · exact h

end Resolving
end Assembly

open Assembly in
/-- **What assembles** still does where more names resolve, and to the same script. -/
theorem assemble_mono {verbs verbs' : String → Option VerbId} (hr : Resolves verbs verbs')
    {file source : String} {script : Script} (h : assemble file source verbs = .ok script) :
    assemble file source verbs' = .ok script := by
  obtain ⟨p, hstages⟩ := assemble_eq_ok.1 h
  exact assemble_eq_ok.2 ⟨p, { hstages with
    lines := Attempt.foldlM_mono (fun _ _ _ => takeLine_mono hr) hstages.lines }⟩

/-! ## Running with more verbs -/

/-- The fault of a call that finds no verb. -/
def UnknownVerb (cause : Fault.Cause) : Prop := ∃ number, cause = .unknownVerb number

namespace VerbTable

variable {H : Type} {t t' : VerbTable H} {id : VerbId} {cause : Fault.Cause}

theorem unknownVerb_of_get (h : t.get id = .error cause) : UnknownVerb cause := ⟨_, get_eq_error h⟩

/-- **More verbs,** and those that are found stay what they are. -/
def Keeps (t t' : VerbTable H) : Prop := ∀ id v, t.get id = .ok v → t'.get id = .ok v

theorem keeps_register {rs rs' : List (String × H)} (hnew : ∀ r ∈ rs', r.1 ∉ (of rs).names) :
    (of rs).Keeps ((of rs).register rs') := by
  intro id v hv
  apply get_register (nodup_of rs) hv
  intro r hr hname
  obtain ⟨-, hfound⟩ := names_of_get hv
  exact hnew r hr (hname ▸ List.mem_of_getElem? hfound)

end VerbTable

section Growing

open Comparison

/-- **What calling comes to** in an engine with a table: what the verb comes to, if there is one. -/
def VerbTable.calling {S H : Type} (t : VerbTable H) (run : Verb H → Bool → Action (Machine S) Flow)
    (id : VerbId) (keeps : Bool) : Action (Machine S) Flow := fun m =>
  match t.get id with
  | .error cause => (.error (.ofCause cause), m)
  | .ok verb => run verb keeps m

theorem Resumable.invoke_eq {σ : Type} (t : VerbTable (Handler σ)) :
    (engine t).invoke = t.calling fun v => v.handler := by
  funext id keeps m
  show invoke t id keeps m = _
  unfold invoke VerbTable.calling
  cases t.get id <;> rfl

theorem Transient.invoke_eq {ω : Type} (t : VerbTable (Handler ω)) :
    (engine t).invoke = t.calling fun v _ m =>
      let (result, lent) := v.handler ⟨m.continuation.operands, m.rest.host⟩
      (result.map .value,
        ⟨{ m.continuation with operands := lent.operands }, { m.rest with host := lent.host }⟩) := by
  funext id keeps m
  show invoke t id m = _
  unfold invoke VerbTable.calling
  cases t.get id <;> rfl

/-- An engine goes in lockstep with one that has more verbs, until a call finds none. -/
theorem lawful_keeps {S H : Type} {e e' : Engine S} {t t' : VerbTable H} {limits : Limits}
    {run : Verb H → Bool → Action (Machine S) Flow} (h : t.Keeps t') (hload : e'.load = e.load)
    (hstore : e'.store = e.store) (he : e.invoke = t.calling run) (he' : e'.invoke = t'.calling run) :
    (losing S UnknownVerb).Lawful e e' limits limits := by
  apply lawful_losing hload hstore _ (.refl _ _) (.refl _ _)
  intro keeps id m
  simp only [he, he', VerbTable.calling]
  cases hv : t.get id with
  | error cause => exact .inl ⟨_, m, rfl, VerbTable.unknownVerb_of_get hv⟩
  | ok v =>
      right
      rw [h id v hv]

open VerbTable

/-- **Growing a table breaks no script.** A table of any registrations numbers its verbs in the order in
which their names first came, and registering a name again replaces the handler of that verb and nothing
else. Under any further registrations every name keeps its id, so what assembled still does, to the same
script. If these come under new names, every run of either engine ends as it did and leaves what it left,
for every fuel, unless it failed because a call found no verb. -/
theorem growth_breaks_nothing :
    (∀ {H : Type} (rs : List (String × H)),
      (of rs).NumberedBy (rs.map Prod.fst).eraseDups ∧
      (∀ name handler, name ∈ (of rs).names →
        ((of rs).add name handler).names = (of rs).names ∧
        ((of rs).add name handler).idOf? = (of rs).idOf? ∧
        ∀ id, ((of rs).add name handler).get id =
          ((of rs).get id).map fun v => if v.name = name then { v with handler } else v) ∧
      ∀ rs', (∀ name id, (of rs).idOf? name = some id → ((of rs).register rs').idOf? name = some id) ∧
        ∀ file source script, assemble file source (of rs).idOf? = .ok script →
          assemble file source ((of rs).register rs').idOf? = .ok script) ∧
    (∀ {ω : Type} (rs rs' : List (String × Transient.Handler ω)),
      (∀ r ∈ rs', r.1 ∉ (of rs).names) →
      ∀ (limits : Limits) (fuel : Nat) (script : Script) (s : Transient.State ω),
        (∀ entry, LosesOrEqual UnknownVerb (Transient.run (of rs) limits fuel script entry s)
          (Transient.run ((of rs).register rs') limits fuel script entry s)) ∧
        ∀ message, LosesOrEqual UnknownVerb (Transient.runMessage (of rs) limits fuel script message s)
          (Transient.runMessage ((of rs).register rs') limits fuel script message s)) ∧
    ∀ {σ : Type} (rs rs' : List (String × Resumable.Handler σ)),
      (∀ r ∈ rs', r.1 ∉ (of rs).names) →
      ∀ (limits : Limits) (fuel : Nat) (m : Machine (Resumable.World σ)),
        LosesOrEqual UnknownVerb (Resumable.execute (of rs) limits fuel m)
          (Resumable.execute ((of rs).register rs') limits fuel m) := by
  refine ⟨?_, ?_, ?_⟩
  · intro H rs
    have hd := nodup_of rs
    refine ⟨?_, ?_, ?_⟩
    · rw [← names_of]
      exact numberedBy hd
    · intro name handler h
      exact ⟨names_add_of_mem h, idOf?_add_of_mem h handler, get_add_of_mem hd h handler⟩
    · intro rs'
      have hresolves : Assembly.Resolves (of rs).idOf? ((of rs).register rs').idOf? :=
        fun _ _ h => idOf?_register hd h rs'
      exact ⟨hresolves, fun _ _ _ => assemble_mono hresolves⟩
  · intro ω rs rs' hnew limits fuel script s
    have hlawful : (losing _ UnknownVerb).Lawful (Transient.engine (of rs))
        (Transient.engine ((of rs).register rs')) limits limits :=
      lawful_keeps (keeps_register hnew) rfl rfl (Transient.invoke_eq _) (Transient.invoke_eq _)
    exact ⟨fun entry => transientRun_losing hlawful fuel script entry s,
      fun message => transientRunMessage_losing hlawful fuel script message s⟩
  · intro σ rs rs' hnew limits fuel m
    have hlawful : (losing _ UnknownVerb).Lawful (Resumable.engine (of rs))
        (Resumable.engine ((of rs).register rs')) limits limits :=
      lawful_keeps (keeps_register hnew) rfl rfl (Resumable.invoke_eq _) (Resumable.invoke_eq _)
    exact execute_losing hlawful (.refl _ _) fuel m

/-- A source that calls two verbs. -/
def twoCalls : String := "call go\ncallv wait\nret"

/-- What it assembles to if `wait` has the id 0 and `go` has 1. -/
def twoCallsScript : Script := ⟨"demo", ⟨#[48, 1, 0, 0, 0, 49, 0, 0, 0, 0, 50]⟩, .empty, .empty⟩

/-- Three registrations of two verbs: at last `wait` suspends. -/
def waitAndGo : List (String × Resumable.Handler Unit) :=
  [("wait", Resumable.getSender), ("go", Resumable.getSender), ("wait", Resumable.suspend)]

/-- The same names for the other engine, where no verb suspends. -/
def sevenAndGo : List (String × Transient.Handler Unit) :=
  [("wait", fun s => (.ok .void, s)), ("go", fun s => (.ok .void, s)),
    ("wait", fun s => (.ok (.int 7), s))]

/-- A further verb leaves `twoCalls` as it is, and its runs. -/
theorem growth_breaks_nothing_twoCalls :
    (of waitAndGo).NumberedBy ["wait", "go"] ∧
    ((of waitAndGo).add "go" Resumable.suspend).names = (of waitAndGo).names ∧
    assemble "demo" twoCalls ((of waitAndGo).register [("stop", Resumable.getSender)]).idOf? =
      .ok twoCallsScript ∧
    Transient.run ((of sevenAndGo).register [("stop", fun s => (.ok .void, s))]) .standard 5
      twoCallsScript 0 ⟨.empty, ()⟩ = some (.ok (.int 7), ⟨.empty, ()⟩) ∧
    ∃ m, Resumable.execute ((of waitAndGo).register [("stop", Resumable.getSender)]) .standard 5
      ⟨.ofFrame (.enter twoCallsScript 0), ⟨.empty, ()⟩⟩ = some (.ok (.suspended .void), m) := by
  have h : assemble "demo" twoCalls (of waitAndGo).idOf? = .ok twoCallsScript := by
    decide +kernel
  have hseven : Transient.run (of sevenAndGo) .standard 5 twoCallsScript 0 ⟨.empty, ()⟩ =
      some (.ok (.int 7), ⟨.empty, ()⟩) := rfl
  have hwait : ∃ m, Resumable.execute (of waitAndGo) .standard 5
      ⟨.ofFrame (.enter twoCallsScript 0), ⟨.empty, ()⟩⟩ = some (.ok (.suspended .void), m) := ⟨_, rfl⟩
  obtain ⟨hnumbered, hagain, hgrown⟩ := growth_breaks_nothing.1 waitAndGo
  obtain ⟨-, hassembles⟩ := hgrown [("stop", Resumable.getSender)]
  refine ⟨hnumbered, (hagain "go" _ (by decide)).1, hassembles _ _ _ h, ?_, ?_⟩
  · rcases (growth_breaks_nothing.2.1 sevenAndGo [("stop", fun s => (.ok .void, s))] (by decide)
      .standard 5 twoCallsScript ⟨.empty, ()⟩).1 0 with ⟨f, s, hfails, -⟩ | heq
    · rw [hseven] at hfails
      cases hfails
    · rw [← heq, hseven]
  · obtain ⟨m, hwait⟩ := hwait
    rcases growth_breaks_nothing.2.2 waitAndGo [("stop", Resumable.getSender)] (by decide) .standard 5
      ⟨.ofFrame (.enter twoCallsScript 0), ⟨.empty, ()⟩⟩ with ⟨f, m, hfails, -⟩ | heq
    · rw [hwait] at hfails
      cases hfails
    · exact ⟨m, heq.symm.trans hwait⟩

end Growing
end CogMachine
