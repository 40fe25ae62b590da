import AccessPolicy.Proofs.Policy.Identity
import AccessPolicy.Proofs.Policy.Statements
import AccessPolicy.Proofs.Sorted

/-! # Declared annotations

What a policy declares is read off its tokens (`Declares`), with repetitions and in the order of
the source. What it keeps of that is told by two conditions (`Collects`): the keys are those of the
first declarations, the values those of the last ones. -/

namespace AccessPolicy

/-- The declarations at the front of some tokens, in the order of the source. -/
inductive Declares : List Kind → List (String × String) → Prop where
  | nil {ts} (hat : ts.head? ≠ some (.symbol .at)) : Declares ts []
  | valued {ts ds key raw value} (hd : Parse.Decodes raw value) (h : Declares ts ds) :
    Declares (.symbol .at :: .ident key :: .symbol .leftParen :: .string raw ::
      .symbol .rightParen :: ts) ((key, value) :: ds)
  /-- A key without a value has the empty one. -/
  | bare {ts ds key} (hparen : ts.head? ≠ some (.symbol .leftParen)) (h : Declares ts ds) :
    Declares (.symbol .at :: .ident key :: ts) ((key, "") :: ds)

/-- The last declaration of the key has the value. -/
def LastDeclared (ds : List (String × String)) (key value : String) : Prop :=
  ∃ before after, ds = before ++ (key, value) :: after ∧ key ∉ after.map Prod.fst

/-- The annotations that declarations leave: each key once, in the place of its first declaration,
with the value of its last one. -/
structure Collects (ds l : List (String × String)) : Prop where
  keys : l.map Prod.fst = (ds.map Prod.fst).eraseDups
  values : ∀ a ∈ l, LastDeclared ds a.1 a.2

theorem Declares.unique {ts : List Kind} {ds ds' : List (String × String)} (h : Declares ts ds)
    (h' : Declares ts ds') : ds = ds' := by
  induction h generalizing ds' with
  | nil hat =>
    cases h' with
    | nil => rfl
    | valued | bare => exact absurd rfl hat
  | valued hd _ ih =>
    cases h' with
    | nil hat => exact absurd rfl hat
    | valued hd' h' =>
      have hvalue := String.toList_injective (Except.ok.inj (hd.symm.trans hd'))
      rw [hvalue, ih h']
    | bare hparen => exact absurd rfl hparen
  | bare hparen _ ih =>
    cases h' with
    | nil hat => exact absurd rfl hat
    | valued => exact absurd rfl hparen
    | bare _ h' => rw [ih h']

/-! ## Lists without repetitions -/

section

variable {α : Type} [DecidableEq α]

theorem eraseDups_concat (l : List α) (a : α) :
    (l ++ [a]).eraseDups = if a ∈ l then l.eraseDups else l.eraseDups ++ [a] := by
  rw [List.eraseDups_append]
  by_cases ha : a ∈ l <;> simp [List.removeAll, List.eraseDups_cons, ha]

theorem nodup_eraseDups (l : List α) : l.eraseDups.Nodup := by
  induction l using List.reverseRecOn with
  | nil => exact .nil
  | append_singleton l a ih =>
    rw [eraseDups_concat]
    split
    · exact ih
    · rename_i ha
      rw [← List.concat_eq_append]
      exact ih.concat (mt List.mem_eraseDups.1 ha)

theorem filter_eraseDups (p : α → Bool) (l : List α) :
    l.eraseDups.filter p = (l.filter p).eraseDups := by
  induction l using List.reverseRecOn with
  | nil => rfl
  | append_singleton l a ih =>
    cases hp : p a <;> by_cases ha : a ∈ l <;>
      simp [eraseDups_concat, List.filter_append, hp, ha, ih]

end

/-! ## Last declarations -/

variable {ds l : List (String × String)} {d : String × String} {key value : String}

theorem lastDeclared_concat :
    LastDeclared (ds ++ [d]) key value ↔
      d = (key, value) ∨ d.1 ≠ key ∧ LastDeclared ds key value := by
  constructor
  · intro h
    obtain ⟨before, after, hds, hkey⟩ := h
    obtain rfl | ⟨after, e, rfl⟩ := after.eq_nil_or_concat'
    · obtain ⟨-, hd⟩ := List.append_inj' hds rfl
      exact .inl (List.head_eq_of_cons_eq hd)
    · rw [← List.cons_append, ← List.append_assoc] at hds
      obtain ⟨rfl, hd⟩ := List.append_inj' hds rfl
      obtain rfl := List.head_eq_of_cons_eq hd
      simp only [List.map_append, List.map_cons, List.map_nil, List.mem_append,
        List.mem_singleton, not_or] at hkey
      exact .inr ⟨Ne.symm hkey.2, before, after, rfl, hkey.1⟩
  · intro h
    obtain rfl | ⟨hne, before, after, rfl, hkey⟩ := h
    · exact ⟨ds, [], rfl, List.not_mem_nil⟩
    · refine ⟨before, after ++ [d], by simp, ?_⟩
      simpa using ⟨fun v hv => hkey (List.mem_map_of_mem hv), Ne.symm hne⟩

theorem LastDeclared.unique {value' : String} (h : LastDeclared ds key value)
    (h' : LastDeclared ds key value') : value = value' := by
  induction ds using List.reverseRecOn with
  | nil =>
    obtain ⟨before, after, hds, -⟩ := h
    simp at hds
  | append_singleton ds d ih =>
    rcases lastDeclared_concat.1 h with rfl | ⟨hne, h⟩
    · rcases lastDeclared_concat.1 h' with he | ⟨hne, -⟩
      · exact congrArg Prod.snd he
      · exact absurd rfl hne
    · rcases lastDeclared_concat.1 h' with rfl | ⟨-, h'⟩
      · exact absurd rfl hne
      · exact ih h h'

theorem LastDeclared.mem_keys (h : LastDeclared ds key value) : key ∈ ds.map Prod.fst := by
  obtain ⟨before, after, rfl, -⟩ := h
  simp

theorem LastDeclared.filter (p : String → Bool) (hp : p key = true)
    (h : LastDeclared ds key value) : LastDeclared (ds.filter fun d => p d.1) key value := by
  obtain ⟨before, after, rfl, hkey⟩ := h
  refine ⟨before.filter fun d => p d.1, after.filter fun d => p d.1, by simp [hp], ?_⟩
  exact fun hmem => hkey (List.map_subset _ List.filter_sublist.subset hmem)

/-! ## What is kept of declarations -/

namespace Annotations

theorem keys_insertIn (key value : String) (l : List (String × String)) :
    (insertIn key value l).map Prod.fst =
      if key ∈ l.map Prod.fst then l.map Prod.fst else l.map Prod.fst ++ [key] := by
  induction l with
  | nil => rfl
  | cons a l ih =>
    obtain ⟨k, v⟩ := a
    by_cases hk : k = key
    · simp [insertIn, hk]
    · by_cases hmem : key ∈ l.map Prod.fst <;> simp [insertIn, hk, Ne.symm hk, ih, hmem]

/-- Keys being distinct, only the pair of the key itself is replaced. -/
theorem mem_insertIn (hl : (l.map Prod.fst).Nodup) (h : d ∈ insertIn key value l) :
    d = (key, value) ∨ key ≠ d.1 ∧ d ∈ l := by
  induction l with
  | nil => exact .inl (List.mem_singleton.1 h)
  | cons a l ih =>
    obtain ⟨k, v⟩ := a
    obtain ⟨hfresh, hl⟩ := List.nodup_cons.1 hl
    rw [insertIn] at h
    split at h
    · rename_i hk
      rcases List.mem_cons.1 h with rfl | hd
      · exact .inl (by rw [hk])
      · refine .inr ⟨?_, List.mem_cons_of_mem _ hd⟩
        have hmem : d.1 ∈ l.map Prod.fst := List.mem_map_of_mem hd
        exact fun he => hfresh (hk.trans he ▸ hmem)
    · rename_i hk
      rcases List.mem_cons.1 h with rfl | hd
      · exact .inr ⟨Ne.symm hk, List.mem_cons_self⟩
      · exact (ih hl hd).imp_right fun hd => ⟨hd.1, List.mem_cons_of_mem _ hd.2⟩

end Annotations

theorem Collects.nodup_keys (h : Collects ds l) : (l.map Prod.fst).Nodup :=
  h.keys ▸ nodup_eraseDups _

theorem Collects.insertIn (h : Collects ds l) (d : String × String) :
    Collects (ds ++ [d]) (Annotations.insertIn d.1 d.2 l) where
  keys := by
    rw [Annotations.keys_insertIn, List.map_append, List.map_singleton, eraseDups_concat, h.keys]
    simp only [List.mem_eraseDups]
  values a ha := by
    rcases Annotations.mem_insertIn h.nodup_keys ha with rfl | ⟨hne, ha⟩
    · exact lastDeclared_concat.2 (.inl rfl)
    · exact lastDeclared_concat.2 (.inr ⟨hne, h.values a ha⟩)

/-- Inserting declarations one by one, in their order. -/
theorem collects_foldl (ds : List (String × String)) :
    Collects ds (ds.foldl (fun l d => Annotations.insertIn d.1 d.2 l) []) := by
  induction ds using List.reverseRecOn with
  | nil => exact ⟨rfl, List.forall_mem_nil _⟩
  | append_singleton ds d ih =>
    rw [List.foldl_append]
    exact ih.insertIn d

theorem Collects.filter (h : Collects ds l) (p : String → Bool) :
    Collects (ds.filter fun d => p d.1) (l.filter fun a => p a.1) where
  keys := by
    have hmap (xs : List (String × String)) :
        (xs.filter fun d => p d.1).map Prod.fst = (xs.map Prod.fst).filter p :=
      List.filter_map.symm
    rw [hmap, hmap, h.keys, filter_eraseDups]
  values a ha := by
    obtain ⟨ha, hp⟩ := List.mem_filter.1 ha
    exact (h.values a ha).filter p hp

theorem Collects.lookup_eq_some_iff (h : Collects ds l) :
    l.lookup key = some value ↔ LastDeclared ds key value := by
  have hlookup : l.lookup key = some value ↔ (key, value) ∈ l :=
    Fields.find?_eq_some_iff h.nodup_keys
  rw [hlookup]
  constructor
  · exact fun hmem => h.values _ hmem
  · intro hlast
    have hkey : key ∈ l.map Prod.fst := by
      rw [h.keys, List.mem_eraseDups]
      exact hlast.mem_keys
    obtain ⟨a, ha, rfl⟩ := List.mem_map.1 hkey
    rw [hlast.unique (h.values a ha)]
    exact ha

/-! ## Declarations of a text -/

namespace Parse

variable {ts rest : List Kind}

theorem head?_append_congr {k : Kind} {us rest' : List Kind} (hhead : rest'.head? = rest.head?)
    (h : (us ++ rest).head? ≠ some k) : (us ++ rest').head? ≠ some k := by
  cases us with
  | nil => rwa [List.nil_append, hhead]
  | cons => exact h

/-- Declarations are told by the tokens they take and by the one behind them. -/
theorem ReadsAnnotations.declares {acc notes : Annotations}
    (h : ReadsAnnotations acc ts notes rest) :
    ∃ us ds, ts = us ++ rest ∧
      (∀ rest', rest'.head? = rest.head? → Declares (us ++ rest') ds) ∧
      notes.list = ds.foldl (fun l d => Annotations.insertIn d.1 d.2 l) acc.list := by
  induction h with
  | stop hat => exact ⟨[], [], rfl, fun rest' hhead => .nil (hhead ▸ hat), rfl⟩
  | @valued acc notes key raw value ts rest hd _ ih =>
    obtain ⟨us, ds, rfl, hds, hnotes⟩ := ih
    exact ⟨_ :: _ :: _ :: _ :: _ :: us, (key, value) :: ds, rfl,
      fun rest' hhead => .valued hd (hds rest' hhead), hnotes⟩
  | @bare acc notes key ts rest hparen _ ih =>
    obtain ⟨us, ds, rfl, hds, hnotes⟩ := ih
    exact ⟨_ :: _ :: us, (key, "") :: ds, rfl,
      fun rest' hhead => .bare (head?_append_congr hhead hparen) (hds rest' hhead), hnotes⟩

theorem ReadsPolicy.declares {bound : Nat} {p : Policy} (h : ReadsPolicy bound p ts rest) :
    ∃ span ds, ts = span ++ .symbol .semicolon :: rest ∧ (∀ k ∈ span, k ≠ .symbol .semicolon) ∧
      Declares span ds ∧ Collects ds p.annotations.list := by
  obtain ⟨ts₁, hnotes, hbehind⟩ := h.behind_notes
  obtain ⟨us, ds, rfl, hds, hlist⟩ := hnotes.declares
  obtain ⟨ws, hws, hplain⟩ := hnotes.plain
  obtain rfl := List.append_cancel_right hws
  obtain ⟨vs, rfl, hvs⟩ := hbehind
  refine ⟨us ++ .ident p.effect.text :: vs, ds, by simp, ?_, hds _ rfl, ?_⟩
  · have hus : ∀ k ∈ us, k ≠ .symbol .semicolon := fun k hk => (hplain k hk).2
    exact List.forall_mem_append.2 ⟨hus, List.forall_mem_cons.2 ⟨nofun, hvs⟩⟩
  · rw [hlist]
    exact collects_foldl ds

/-- The semicolons of a text cut its tokens into those of the policies. -/
theorem ReadsPolicies.declares {bound index : Nat} {ps : List Policy}
    (h : ReadsPolicies bound index ts ps) :
    ∃ spans declared, ts.splitOn (.symbol .semicolon) = spans ++ [[]] ∧
      List.Forall₂ Declares spans declared ∧
      List.Forall₂ (fun p ds => Collects ds p.annotations.list) ps declared := by
  induction h with
  | nil => exact ⟨[], [], rfl, .nil, .nil⟩
  | cons _ hp _ ih =>
    obtain ⟨spans, declared, hspans, hdeclared, hcollects⟩ := ih
    obtain ⟨span, ds, rfl, hspan, hds, hp⟩ := hp.declares
    refine ⟨span :: spans, ds :: declared, ?_, .cons hds hdeclared, .cons hp hcollects⟩
    rw [splitOn_semicolon hspan, hspans, List.cons_append]

end Parse

end AccessPolicy
