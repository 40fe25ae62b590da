import AccessPolicy.Proofs.Parse.Failure
import AccessPolicy.Proofs.Parse.Lookahead
import AccessPolicy.Proofs.Policy.Canonical
import AccessPolicy.Proofs.Token.Below

/-! # Policy texts below each other

A policy ends at its semicolon, so the policies of an accepted text are read whatever stands below
them, and nothing that was read before changes what is read later but the number that makes the next
id. A text below an accepted one therefore gives the policies that it gives alone, numbered behind
those above, or fails as it fails alone, only farther down. -/

namespace AccessPolicy

namespace Policy

def withIndex (n : Nat) (p : Policy) : Policy := { p with id := .ofIndex n }

/-- The policies with ids that count them from `n`. -/
def numberedFrom (n : Nat) (ps : List Policy) : List Policy :=
  ps.mapIdx fun i p => p.withIndex (n + i)

theorem numberedFrom_cons (n : Nat) (p : Policy) (ps : List Policy) :
    numberedFrom n (p :: ps) = p.withIndex n :: numberedFrom (n + 1) ps := by
  have hshift : ∀ i, n + 1 + i = n + (i + 1) := fun i => by omega
  simp only [numberedFrom, List.mapIdx_cons, Nat.add_zero, hshift]

end Policy

namespace Parse

variable {α β : Type} {ts rest : List Kind}

/-! ## Policies before other tokens -/

theorem takes_uid_append {u : Uid} (h : Takes (uid ts) u rest) (us : List Kind) :
    Takes (uid (ts ++ us)) u (rest ++ us) := by
  obtain ⟨word, names, raw, rfl, htype, hid⟩ := takes_uid_iff.1 h
  exact takes_uid_iff.2 ⟨word, names, raw, by simp, htype, hid⟩

theorem takes_path_append {name : String} (h : Takes (path ts) name rest)
    (hlen : 2 ≤ rest.length) (us : List Kind) : Takes (path (ts ++ us)) name (rest ++ us) := by
  obtain ⟨word, names, rfl, rfl, hend⟩ := takes_path_iff.1 h
  exact takes_path_iff.2 ⟨word, names, by simp, rfl, not_nameGoesOn_append hlen hend⟩

theorem ReadsUids.append {l : List Uid} (h : ReadsUids ts l rest) (us : List Kind) :
    ReadsUids (ts ++ us) l (rest ++ us) := by
  induction h with
  | nil => exact .nil
  | last hu => exact .last (takes_uid_append hu us)
  | cons hu _ ih => exact .cons (takes_uid_append hu us) ih

theorem ReadsConstraint.append {slot : Slot} {c : ScopeConstraint}
    (h : ReadsConstraint slot ts c rest) (hlen : 2 ≤ rest.length) (us : List Kind) :
    ReadsConstraint slot (ts ++ us) c (rest ++ us) := by
  have hpos : 0 < rest.length := Nat.lt_of_lt_of_le Nat.two_pos hlen
  cases h with
  | any hequal hin his =>
    exact .any (head?_append_ne_of_length hpos hequal) (head?_append_ne_of_length hpos hin)
      (head?_append_ne_of_length hpos his)
  | equal hu => exact .equal (takes_uid_append hu us)
  | within hu => exact .within (takes_uid_append hu us)
  | withinAny hslot hus => exact .withinAny hslot (hus.append us)
  | is hname hin => exact .is (takes_path_append hname hlen us) (head?_append_ne_of_length hpos hin)
  | isIn hname hu =>
    have hlt := hu.length_lt
    have hname := takes_path_append hname (by simp only [List.length_cons]; omega) us
    exact .isIn hname (takes_uid_append hu us)

theorem ReadsScope.append {s : Scope} (h : ReadsScope ts s rest) (hlen : 2 ≤ rest.length)
    (us : List Kind) : ReadsScope (ts ++ us) s (rest ++ us) := by
  obtain ⟨hprincipal, haction, hresource⟩ := h
  exact .intro (hprincipal.append (by simp) us) (haction.append (by simp) us)
    (hresource.append hlen us)

theorem ReadsAnnotations.append {acc notes : Annotations} (h : ReadsAnnotations acc ts notes rest)
    (hlen : 0 < rest.length) (us : List Kind) :
    ReadsAnnotations acc (ts ++ us) notes (rest ++ us) := by
  induction h with
  | stop hat => exact .stop (head?_append_ne_of_length hlen hat)
  | valued hd _ ih => exact .valued hd (ih hlen)
  | bare hparen h ih =>
    exact .bare (head?_append_ne_of_length (hlen.trans_le h.length_le) hparen) (ih hlen)

theorem ReadsConditions.length_le {n : Nat} {cs : List Condition}
    (h : ReadsConditions n ts cs rest) : rest.length ≤ ts.length := by
  induction h with
  | stop => exact le_rfl
  | cons _ hbody _ ih =>
    have hlen := hbody.length_le
    simp only [List.length_cons] at hlen ⊢
    omega

theorem ReadsConditions.append {n : Nat} {cs : List Condition} (h : ReadsConditions n ts cs rest)
    (hlen : 0 < rest.length) (us : List Kind) : ReadsConditions n (ts ++ us) cs (rest ++ us) := by
  induction h with
  | stop hstop =>
    refine .stop ?_
    rwa [head?_append_of_length hlen]
  | cons hk hbody hcs ih =>
    have hlen₁ := hcs.length_le
    exact .cons hk (hbody.append (by simp only [List.length_cons]; omega) us) (ih hlen)

/-- **A policy is taken whatever stands behind its semicolon.** -/
theorem takes_policy_append {bound index : Nat} {p : Policy}
    (h : Takes (policy bound index ts) p rest) (us : List Kind) :
    Takes (policy bound index (ts ++ us)) p (rest ++ us) := by
  obtain ⟨hid, hnotes, hscope, hconditions⟩ := takes_policy_iff.1 h
  have hlen := hconditions.length_le
  simp only [List.length_cons] at hlen
  exact takes_policy_iff.2 ⟨hid, .intro (hnotes.append (by simp) us)
    (hscope.append (by simp only [List.length_cons]; omega) us)
    (hconditions.append (Nat.zero_lt_succ _) us)⟩

/-! ## The ids of policies -/

theorem map_bind {ε γ : Type} (f : β → γ) (x : Except ε α) (g : α → Except ε β) :
    (x >>= g).map f = x >>= fun a => (g a).map f := by
  cases x <;> rfl

/-- The index of a policy is in its id only. -/
theorem policy_index (bound index index' : Nat) (ts : List Kind) :
    policy bound index ts =
      (policy bound index' ts).map fun r => r.map (Policy.withIndex index) := by
  simp only [policy, map_bind]
  rfl

theorem policies_index (bound index index' : Nat) (ts : List Kind) :
    policies bound index ts = (policies bound index' ts).map (Policy.numberedFrom index) := by
  rw [policies, policies]
  split
  · rfl
  · rw [policy_index bound index index', map_bind]
    cases policy bound index' ts with
    | error f => rfl
    | ok r =>
      obtain ⟨p, rest, hlt⟩ := r
      change (policies bound (index + 1) rest >>= fun ps => .ok (p.withIndex index :: ps)) =
        (policies bound (index' + 1) rest >>= fun ps => .ok (p :: ps)).map
          (Policy.numberedFrom index)
      rw [policies_index bound (index + 1) (index' + 1) rest, map_bind]
      cases policies bound (index' + 1) rest with
      | error f => rfl
      | ok ps => exact congrArg Except.ok (Policy.numberedFrom_cons index p ps).symm
termination_by ts.length

/-- Policies that are numbered as they were read keep their ids. -/
theorem numberedFrom_of_policies {bound index : Nat} {ps : List Policy}
    (h : policies bound index ts = .ok ps) : Policy.numberedFrom index ps = ps := by
  have hindex := policies_index bound index index ts
  rw [h] at hindex
  exact (Except.ok.inj hindex).symm

/-! ## Policies before other policies -/

theorem policies_of_takes {bound index : Nat} {p : Policy}
    (h : Takes (policy bound index ts) p rest) (hne : ts ≠ []) :
    policies bound index ts = (policies bound (index + 1) rest).map (p :: ·) := by
  obtain ⟨hlt, h⟩ := h
  rw [policies, if_neg hne, h]
  rfl

/-- **Policies that make up a list of tokens are read before any other tokens too.** -/
theorem policies_append {bound index : Nat} {ps : List Policy}
    (h : policies bound index ts = .ok ps) (us : List Kind) :
    policies bound index (ts ++ us) = (policies bound (index + ps.length) us).map (ps ++ ·) := by
  induction policies_eq_ok_iff.1 h with
  | @nil index => cases hus : policies bound index us <;> simp [hus, Except.map]
  | @cons index ts rest p ps hid hp hps ih =>
    have hp := takes_policy_iff.2 ⟨hid, hp⟩
    have hpos : 0 < ts.length := Nat.zero_lt_of_lt hp.length_lt
    have hne : ts ++ us ≠ [] := List.append_ne_nil_of_left_ne_nil (List.length_pos_iff.1 hpos) us
    have hlen : index + 1 + ps.length = index + (p :: ps).length := by
      simp only [List.length_cons]
      omega
    rw [policies_of_takes (takes_policy_append hp us) hne, ih (policies_eq_ok_iff.2 hps), hlen]
    cases policies bound (index + (p :: ps).length) us <;> rfl

/-! ## Texts -/

/-- A reader of a whole text that stands below another one. -/
theorem run_below {read read' : List Kind → Except Failure α} {f : α → α} {a : String}
    {ts : Tokens} (h : Tokens.ofText a = .ok ts)
    (hread : ∀ us, read (ts.kinds ++ us) = (read' us).map f)
    (hfail : ∀ us, FailsWithin us.length (read' us)) (b : String) :
    run read (a ++ "\n" ++ b) =
      ((run read' b).map f).mapError (ParseError.down (a.toList.count '\n' + 1)) := by
  unfold run
  rw [Tokens.ofText_below h]
  cases Tokens.ofText b with
  | error e => rfl
  | ok us =>
    have hkinds : Tokens.kinds ⟨ts.list ++ (us.down (a.toList.count '\n' + 1)).list,
        (us.down (a.toList.count '\n' + 1)).finish⟩ = ts.kinds ++ us.kinds := by
      simp [Tokens.kinds, Tokens.down, Token.down, Function.comp_def]
    simp only [Except.map, Except.mapError, bind, Except.bind, hkinds, hread]
    cases hus : read' us.kinds with
    | ok x => rfl
    | error e =>
      have hle : e.remaining ≤ us.list.length := by
        simpa [Tokens.kinds] using hfail us.kinds e hus
      simp only [Tokens.positionAt_below ts.list us hle]
      rfl

end Parse

/-- **Policy texts compose.** Below an accepted text, a text gives the policies that it gives alone,
with ids that go on counting, or it fails as it fails alone, in the line that is as much farther
down. -/
theorem Policy.parseAll_below {bound : Nat} {a : String} {ps : List Policy}
    (h : Policy.parseAll bound a = .ok ps) (b : String) :
    (∀ qs, Policy.parseAll bound b = .ok qs →
      Policy.numberedFrom 0 qs = qs ∧
        Policy.parseAll bound (a ++ "\n" ++ b) = .ok (ps ++ Policy.numberedFrom ps.length qs)) ∧
      ∀ line column fault, Policy.parseAll bound b = .error ⟨⟨line, column⟩, fault⟩ →
        Policy.parseAll bound (a ++ "\n" ++ b) =
          .error ⟨⟨line + (a.toList.count '\n' + 1), column⟩, fault⟩ := by
  obtain ⟨ts, hts, hps⟩ := Policy.parseAll_eq_ok_iff.1 h
  have hread : ∀ us, Parse.policies bound 0 (ts.kinds ++ us) =
      (Parse.policies bound 0 us).map fun qs => ps ++ Policy.numberedFrom ps.length qs := by
    intro us
    rw [Parse.policies_append hps us, Parse.policies_index bound (0 + ps.length) 0, Nat.zero_add]
    cases Parse.policies bound 0 us <;> rfl
  have hrun := Parse.run_below hts hread (Parse.policies_failsWithin bound 0) b
  refine ⟨fun qs hqs => ⟨?_, ?_⟩, fun line column fault hb => ?_⟩
  · obtain ⟨us, -, hus⟩ := Policy.parseAll_eq_ok_iff.1 hqs
    exact Parse.numberedFrom_of_policies hus
  · rw [Policy.parseAll] at hqs ⊢
    rw [hrun, hqs]
    rfl
  · rw [Policy.parseAll] at hb ⊢
    rw [hrun, hb]
    rfl

/-- A comment at the end of the upper text ends with its line, and a condition that nests too deep
is refused where it stands. -/
theorem Policy.parseAll_below_comment :
    let upper := "permit(principal, action, resource); // one"
    let permit : Policy := ⟨.ofIndex 0, .permit, {}, [], {}⟩
    let forbid : Policy := ⟨.ofIndex 0, .forbid, {}, [], {}⟩
    Policy.parseAll 1 upper = .ok [permit] ∧
      Policy.parseAll 1 (upper ++ "\n" ++ "forbid(principal, action, resource);") =
        .ok [permit, forbid.withIndex 1] ∧
      Policy.parseAll 1 (upper ++ "\n" ++
          "permit(principal, action, resource)\n  when \x7b !true \x7d;") =
        .error ⟨⟨3, 11⟩, .tooDeep 1⟩ := by
  intro upper permit forbid
  have hkinds : (Tokens.ofText upper).map Tokens.kinds = .ok [.ident "permit",
      .symbol .leftParen, .ident "principal", .symbol .comma, .ident "action", .symbol .comma,
      .ident "resource", .symbol .rightParen, .symbol .semicolon] := by decide +kernel
  have hupper : Policy.parseAll 1 upper = .ok [permit] :=
    Policy.parseAll_eq_ok_of_kinds hkinds (by with_unfolding_all rfl)
  have hforbid : Policy.parseAll 1 "forbid(principal, action, resource);" = .ok [forbid] := by
    with_unfolding_all rfl
  have hfault : (Policy.parseAll 1
      "permit(principal, action, resource)\n  when \x7b !true \x7d;").map (fun _ => ()) =
      .error ⟨⟨2, 11⟩, .tooDeep 1⟩ := by decide +kernel
  have hdeep := Parse.map_eq_error_iff.1 hfault
  have hline : upper.toList.count '\n' = 0 := by decide
  have hbelow := (Policy.parseAll_below hupper _).2 _ _ _ hdeep
  rw [hline] at hbelow
  exact ⟨hupper, ((Policy.parseAll_below hupper _).1 _ hforbid).2, hbelow⟩

end AccessPolicy
