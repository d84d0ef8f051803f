-- SUMMARY: Configurations survive being written and read, and fields that are missing from a document are read as their standard values.
import CurvePartition.Proofs.Config.Checking
import CurvePartition.Proofs.Config.Ordering
import CurvePartition.Proofs.Json.Reading

/-!
# Configurations written and read

`Config.reset` gives the fields of some names their standard values, and `Json.without` takes the members of these names out of an
object. What is left of the document of a configuration is read as the configuration with these fields reset, if its check succeeds
(`Config.read_without`). Nothing has to be taken out: a configuration that is written is read as it is.

That a number is read back from its digits is a matter of the number (`Decimal.ReadsBack`): the reader multiplies a rounded significand by
a rounded power of ten, which misses some long decimals by a unit.
-/

namespace CurvePartition

/-! ## Objects and their fields -/

namespace Json

variable {α : Type} {members : List (String × Json)} {m : String × Json} {removed : List String} {j : Json}

/-- An object without the members of some names. -/
def without (removed : List String) : Json → Json
  | object members => object (members.filter fun m => (textOf m.1).all (· ∉ removed))
  | j => j

theorem without_ofMembers (removed : List String) (members : List (String × Json)) :
    (ofMembers members).without removed = ofMembers (members.filter (·.1 ∉ removed)) := by
  simp only [ofMembers, without, List.filter_map, Function.comp_def, textOf_piecesOf, Option.all_some]

theorem without_nil (members : List (String × Json)) : (ofMembers members).without [] = ofMembers members := by
  rw [without_ofMembers, List.filter_eq_self.2 (by simp)]

theorem mapM_map_of_some {β γ : Type} {l : List α} {key : α → β} {read? : β → Option γ} {value : α → γ}
    (h : ∀ a ∈ l, read? (key a) = some (value a)) : (l.map key).mapM read? = some (l.map value) := by
  induction l with
  | nil => rfl
  | cons a l ih =>
    rw [List.map_cons, List.mapM_cons, h a List.mem_cons_self, ih fun b hb => h b (List.mem_cons_of_mem a hb)]
    rfl

theorem named?_ofMembers (members : List (String × Json)) :
    named? (members.map fun m => (piecesOf m.1, m.2)) = some members := by
  have hread : ∀ m ∈ members, (textOf (piecesOf m.1)).map (·, m.2) = some (id m) := fun m _ => by simp
  exact (mapM_map_of_some hread).trans (congrArg some (List.map_id members))

/-- A name that is given once has one member. -/
theorem filter_name (hnodup : (members.map Prod.fst).Nodup) (hm : m ∈ members) : members.filter (·.1 = m.1) = [m] := by
  induction members with
  | nil => cases hm
  | cons n members ih =>
    obtain ⟨hn, hnodup⟩ := List.nodup_cons.1 hnodup
    rcases List.mem_cons.1 hm with rfl | hm
    · have hrest : members.filter (·.1 = m.1) = [] := by
        refine List.filter_eq_nil_iff.2 fun n hmem heq => hn ?_
        exact of_decide_eq_true heq ▸ List.mem_map_of_mem hmem
      rw [List.filter_cons_of_pos (by simp), hrest]
    · have hne : n.1 ≠ m.1 := fun heq => hn (heq ▸ List.mem_map_of_mem hm)
      rw [List.filter_cons_of_neg (by simpa using hne), ih hnodup hm]

/-- A field is found unless it was taken out. -/
theorem single?_of_mem (hnodup : (members.map Prod.fst).Nodup) (hm : m ∈ members) :
    single? (members.filter (·.1 ∉ removed)) m.1 = some (if m.1 ∈ removed then none else some m.2) := by
  by_cases hremoved : m.1 ∈ removed
  · have hfilter : (members.filter (·.1 ∉ removed)).filter (·.1 = m.1) = [] :=
      List.filter_eq_nil_iff.2 fun n hn heq =>
        of_decide_eq_true (List.mem_filter.1 hn).2 (of_decide_eq_true heq ▸ hremoved)
    rw [single?, hfilter, if_pos hremoved]
  · have hkept : m ∈ members.filter (·.1 ∉ removed) := List.mem_filter.2 ⟨hm, decide_eq_true hremoved⟩
    rw [single?, filter_name (hnodup.sublist (List.filter_sublist.map _)) hkept, if_neg hremoved]

theorem fields?_without (removed : List String) (hnodup : (members.map Prod.fst).Nodup) :
    ((ofMembers members).without removed).fields? (members.map Prod.fst) =
      some (members.map fun m => if m.1 ∈ removed then none else some m.2) := by
  rw [without_ofMembers, ofMembers, fields?, named?_ofMembers]
  exact mapM_map_of_some fun m hm => single?_of_mem hnodup hm

theorem fields?_ofMembers (hnodup : (members.map Prod.fst).Nodup) :
    (ofMembers members).fields? (members.map Prod.fst) = some (members.map fun m => some m.2) := by
  have h := fields?_without [] hnodup
  rw [without_nil] at h
  simpa using h

theorem fieldOr_ite {standard value : α} {read? : Json → Option α} {name : String}
    (h : name ∉ removed → read? j = some value) :
    fieldOr standard read? (if name ∈ removed then none else some j) = some (if name ∈ removed then standard else value) := by
  by_cases hremoved : name ∈ removed
  · simp only [hremoved, if_true, fieldOr]
  · simp only [hremoved, if_false, fieldOr, h hremoved]

end Json

/-! ## Numbers -/

/-- Whether a number is read back from the digits that are written for it. -/
def Decimal.ReadsBack (x : Float) : Prop := (numeral .document x).toFloat? = some x

instance (x : Float) : Decidable (Decimal.ReadsBack x) :=
  inferInstanceAs (Decidable ((Decimal.numeral .document x).toFloat? = some x))

-- A tenth and large powers of ten are read back, but thirty places behind the point a single digit may be missed.
example : Decimal.ReadsBack 0.1 ∧ Decimal.ReadsBack 1e300 ∧ ¬ Decimal.ReadsBack 3e-31 := by decide +kernel

namespace Json

theorem float?_ofFloat {x : Float} (hfinite : x.isFinite = true) (h : Decimal.ReadsBack x) : (ofFloat x).float? = some x := by
  rw [ofFloat, if_pos hfinite]
  exact h

theorem count?_ofCount {n : Nat} (h : n < 2 ^ 64) : (ofCount n).count? = some n := Numeral.toCount?_ofNat h

theorem triple?_ofTriple {α : Type} {item : α → Json} {item? : Json → Option α} {t : Triple α}
    (h : ∀ v ∈ t.toList, item? (item v) = some v) : (ofTriple item t).triple? item? = some t := by
  have hget : ∀ a, item? (item (t.get a)) = some (t.get a) := fun a => h _ (Triple.mem_toList_iff.2 ⟨a, rfl⟩)
  show (do return Triple.mk (← item? (item (t.get .x))) (← item? (item (t.get .y))) (← item? (item (t.get .z)))) = some t
  rw [hget, hget, hget]
  rfl

/-- A choice without parameters is found by its name. -/
theorem plainChoice?_ofText {α : Type} {name : α → String} {all : List α} {choice : α}
    (h : all.find? (name · = name choice) = some choice) : (ofText (name choice)).plainChoice? name all = some choice := by
  rw [plainChoice?, ofText, choice?, textOf_piecesOf]
  exact h

end Json

theorem Boundary.find?_name (k : Boundary) : all.find? (name · = k.name) = some k := by
  cases k <;> decide

theorem Curve.find?_name (k : Curve) : all.find? (name · = k.name) = some k := by
  cases k <;> decide

theorem Backend.find?_name (k : Backend) : all.find? (name · = k.name) = some k := by
  cases k <;> decide

theorem Box.ofJson?_toJson {b : Box Float} (h : ∀ x ∈ b.numbers, (Json.ofFloat x).float? = some x) :
    Box.ofJson? b.toJson = some b := by
  have hlo : (Json.ofTriple .ofFloat b.lo).triple? Json.float? = some b.lo :=
    Json.triple?_ofTriple fun x hx => h x (List.mem_append_left _ hx)
  have hhi : (Json.ofTriple .ofFloat b.hi).triple? Json.float? = some b.hi :=
    Json.triple?_ofTriple fun x hx => h x (List.mem_append_right _ hx)
  have hboundaries : (Json.ofTriple (fun k => .ofText k.name) b.boundaries).triple?
      (Json.plainChoice? Boundary.name Boundary.all) = some b.boundaries :=
    Json.triple?_ofTriple fun k _ => Json.plainChoice?_ofText k.find?_name
  have hfields : b.toJson.fields? ["lo", "hi", "boundaries"] = some [some _, some _, some _] :=
    Json.fields?_ofMembers (show List.Nodup ["lo", "hi", "boundaries"] by decide)
  rw [ofJson?, hfields]
  simp only [Option.bind_eq_bind, Option.bind_some, Json.required, hlo, hhi, hboundaries, Option.pure_def]

theorem HaloRadius.ofJson?_toJson {r : HaloRadius Float} (h : (Json.ofFloat r.number).float? = some r.number) :
    HaloRadius.ofJson? r.toJson = some r := by
  cases r with
  | fixed radius =>
    have hchoice : (fixed radius).toJson.choice? = some ("fixed", some (.ofFloat radius)) := by
      simp [toJson, Json.ofMembers, Json.choice?]
    rw [ofJson?, hchoice]
    simp only [Option.bind_eq_bind, Option.bind_some]
    rw [show (Json.ofFloat radius).float? = some radius from h]
    rfl
  | perParticle factor =>
    have hchoice : (perParticle factor).toJson.choice? = some ("per_particle", some (.ofMembers [("factor", .ofFloat factor)])) := by
      simp [toJson, Json.ofMembers, Json.choice?]
    have hfields : (Json.ofMembers [("factor", .ofFloat factor)]).fields? ["factor"] = some [some (.ofFloat factor)] :=
      Json.fields?_ofMembers (show List.Nodup ["factor"] by decide)
    rw [ofJson?, hchoice]
    simp only [Option.bind_eq_bind, Option.bind_some, hfields, Json.required]
    rw [show (Json.ofFloat factor).float? = some factor from h]
    rfl

namespace Config

/-- The configuration with the standard values of the fields of some names. -/
def reset {α : Type} [Scalar α] (removed : List String) (c : Config α) : Config α where
  bucketSize := if "bucket_size" ∈ removed then (standard : Config α).bucketSize else c.bucketSize
  haloRadius := if "halo_radius" ∈ removed then (standard : Config α).haloRadius else c.haloRadius
  curve := if "curve" ∈ removed then (standard : Config α).curve else c.curve
  backend := if "backend" ∈ removed then (standard : Config α).backend else c.backend
  theta := if "focus_theta" ∈ removed then (standard : Config α).theta else c.theta
  maxRounds := if "max_rebalance_iterations" ∈ removed then (standard : Config α).maxRounds else c.maxRounds
  box := if "domain_box" ∈ removed then (standard : Config α).box else c.box

@[simp] theorem reset_nil {α : Type} [Scalar α] (c : Config α) : c.reset [] = c := by
  simp [reset]

variable {c : Config Float} {removed : List String}

/-- What is left of the document of a configuration is the configuration with the missing fields reset. -/
theorem ofJson?_without (hbucket : c.bucketSize < 2 ^ 64) (hrounds : c.maxRounds < 2 ^ 64)
    (hread : ∀ x ∈ c.numbers, x ∈ (c.reset removed).numbers → (Json.ofFloat x).float? = some x) :
    ofJson? (c.toJson.without removed) = some (c.reset removed) := by
  have hnodup : List.Nodup ["bucket_size", "halo_radius", "curve", "backend", "focus_theta", "max_rebalance_iterations",
      "domain_box"] := by decide
  have hradius : "halo_radius" ∉ removed → HaloRadius.ofJson? c.haloRadius.toJson = some c.haloRadius := fun hkept =>
    HaloRadius.ofJson?_toJson (hread _ (by simp [numbers]) (by simp [numbers, reset, hkept]))
  have htheta : "focus_theta" ∉ removed → (Json.ofFloat c.theta).float? = some c.theta := fun hkept =>
    hread _ (by simp [numbers]) (by simp [numbers, reset, hkept])
  have hbox : "domain_box" ∉ removed → Box.ofJson? c.box.toJson = some c.box := fun hkept =>
    Box.ofJson?_toJson fun x hx => hread x (by simp [numbers, hx]) (by simp [numbers, reset, hkept, hx])
  have hfields : (c.toJson.without removed).fields? ["bucket_size", "halo_radius", "curve", "backend", "focus_theta",
      "max_rebalance_iterations", "domain_box"] = some _ := Json.fields?_without removed hnodup
  rw [ofJson?, hfields]
  simp only [List.map_cons, List.map_nil, Option.bind_eq_bind, Option.bind_some, Option.pure_def,
    Json.fieldOr_ite fun _ => Json.count?_ofCount hbucket, Json.fieldOr_ite hradius,
    Json.fieldOr_ite fun _ => Json.plainChoice?_ofText c.curve.find?_name,
    Json.fieldOr_ite fun _ => Json.plainChoice?_ofText c.backend.find?_name,
    Json.fieldOr_ite htheta, Json.fieldOr_ite fun _ => Json.count?_ofCount hrounds, Json.fieldOr_ite hbox]
  rfl

end Config

/-! ## Documents that are written -/

namespace Json

variable {s : String} {members : List (String × Json)} {removed : List String} {j : Json}

/-- Whether a text has no control characters. -/
def IsPlain (s : String) : Prop := ∀ c ∈ s.toList, 0x20 ≤ c.toNat

instance (s : String) : Decidable (IsPlain s) := List.decidableBAll _ _

theorem wellFormed_piecesOf (h : IsPlain s) : ∀ p ∈ piecesOf s, p.WellFormed := by
  intro p hp
  obtain ⟨c, hc, rfl⟩ := List.mem_map.1 hp
  exact .inl (h c hc)

theorem wellFormed_ofText (h : IsPlain s) : (ofText s).WellFormed := .string (wellFormed_piecesOf h)

theorem wellFormed_ofCount (n : Nat) : (ofCount n).WellFormed := .number (Numeral.wellFormed_ofNat n)

theorem wellFormed_ofFloat (x : Float) : (ofFloat x).WellFormed := by
  rw [ofFloat]
  split
  · exact .number (Decimal.wellFormed_numeral .document (fun c hc => List.mem_singleton.1 hc ▸ rfl) x)
  · exact .null

theorem wellFormed_ofTriple {α : Type} {item : α → Json} (h : ∀ v, (item v).WellFormed) (t : Triple α) :
    (ofTriple item t).WellFormed := by
  refine .array fun j hj => ?_
  obtain ⟨a, rfl⟩ := Triple.mem_toList_iff.1 hj
  exact Triple.get_map item t a ▸ h (t.get a)

theorem wellFormed_ofMembers (hnames : ∀ name ∈ members.map Prod.fst, IsPlain name)
    (hvalues : ∀ j ∈ members.map Prod.snd, j.WellFormed) : (ofMembers members).WellFormed := by
  refine .object (fun m hm => ?_) fun m hm => ?_
  · obtain ⟨n, hn, rfl⟩ := List.mem_map.1 hm
    exact wellFormed_piecesOf (hnames n.1 (List.mem_map_of_mem hn))
  · obtain ⟨n, hn, rfl⟩ := List.mem_map.1 hm
    exact hvalues n.2 (List.mem_map_of_mem hn)

theorem WellFormed.without (h : j.WellFormed) (removed : List String) : (j.without removed).WellFormed := by
  cases h with
  | object names values =>
    exact .object (fun m hm => names m (List.mem_filter.1 hm).1) fun m hm => values m (List.mem_filter.1 hm).1
  | null => exact .null
  | bool value => exact .bool value
  | number h => exact .number h
  | string h => exact .string h
  | array h => exact .array h

end Json

theorem Box.wellFormed_toJson (b : Box Float) : b.toJson.WellFormed := by
  have hnames : ∀ name ∈ ["lo", "hi", "boundaries"], Json.IsPlain name := by decide
  have hkind : ∀ k : Boundary, (Json.ofText k.name).WellFormed := fun k => Json.wellFormed_ofText (by cases k <;> decide)
  refine Json.wellFormed_ofMembers hnames ?_
  simp [Json.wellFormed_ofTriple, Json.wellFormed_ofFloat, hkind]

theorem HaloRadius.wellFormed_toJson (r : HaloRadius Float) : r.toJson.WellFormed := by
  have hsingle : ∀ {name : String} {j : Json}, Json.IsPlain name → j.WellFormed → (Json.ofMembers [(name, j)]).WellFormed :=
    fun hname hj => Json.wellFormed_ofMembers (List.forall_mem_singleton.2 hname) (List.forall_mem_singleton.2 hj)
  cases r with
  | fixed radius => exact hsingle (by decide) (Json.wellFormed_ofFloat radius)
  | perParticle factor => exact hsingle (by decide) (hsingle (by decide) (Json.wellFormed_ofFloat factor))

namespace Config

theorem wellFormed_toJson (c : Config Float) : c.toJson.WellFormed := by
  have hnames : ∀ name ∈ ["bucket_size", "halo_radius", "curve", "backend", "focus_theta", "max_rebalance_iterations",
      "domain_box"], Json.IsPlain name := by decide
  have hcurve : (Json.ofText c.curve.name).WellFormed := Json.wellFormed_ofText (by cases c.curve <;> decide)
  have hbackend : (Json.ofText c.backend.name).WellFormed := Json.wellFormed_ofText (by cases c.backend <;> decide)
  refine Json.wellFormed_ofMembers hnames ?_
  simp [Json.wellFormed_ofCount, Json.wellFormed_ofFloat, HaloRadius.wellFormed_toJson, Box.wellFormed_toJson, hcurve, hbackend]

/-- A configuration whose check succeeds is read from its text as it is. Members may be taken out of its document: from any text that
holds the others, in whatever order and with whatever blanks, the configuration is read with the standard values of the missing fields, if
the check of the outcome succeeds. -/
theorem read_without (c : Config Float) (hbucket : c.bucketSize < 2 ^ 64) (hrounds : c.maxRounds < 2 ^ 64)
    (hnumbers : ∀ x ∈ c.numbers, x.isFinite = true → Decimal.ReadsBack x) :
    (c.check = .ok () → read c.write = .ok c) ∧
    ∀ removed : List String, (c.reset removed).check = .ok () →
      read (c.toJson.without removed).pretty = .ok (c.reset removed) ∧
      ∀ text j, Json.parse? text = some j → Json.Alike j (c.toJson.without removed) → read text = .ok (c.reset removed) := by
  have htext : ∀ removed : List String, (c.reset removed).check = .ok () →
      ∀ text j, Json.parse? text = some j → Json.Alike j (c.toJson.without removed) → read text = .ok (c.reset removed) := by
    intro removed hcheck text j hparse hj
    have hread : ofJson? (c.toJson.without removed) = some (c.reset removed) := ofJson?_without hbucket hrounds fun x hx hreset =>
      have hfinite := isFinite_of_check hcheck hreset
      Json.float?_ofFloat hfinite (hnumbers x hx hfinite)
    rw [read, hparse, Option.bind_eq_bind, Option.bind_some, respects_ofJson? _ _ hj, hread]
    simp only [hcheck]
    rfl
  have hpretty : ∀ removed : List String, (c.reset removed).check = .ok () →
      read (c.toJson.without removed).pretty = .ok (c.reset removed) := fun removed hcheck =>
    htext removed hcheck _ _ (Json.parse?_pretty (c.wellFormed_toJson.without removed)) (.refl _)
  refine ⟨fun hcheck => ?_, fun removed hcheck => ⟨hpretty removed hcheck, htext removed hcheck⟩⟩
  have hwrite := hpretty [] (by rwa [reset_nil])
  rw [reset_nil, toJson, Json.without_nil, ← toJson] at hwrite
  exact hwrite

/-- A configuration with a large count, a fixed radius, and bounds on two axes of its box. -/
def walls : Config Float where
  bucketSize := 2 ^ 64 - 1
  haloRadius := .fixed 0.1
  curve := .morton
  backend := .threadPool
  theta := 1e300
  maxRounds := 1
  box := ⟨⟨-0.1, -1e16, 0⟩, ⟨0.5, 2.5e-7, 3⟩, ⟨.periodic, .fixed, .unbounded⟩⟩

/-- A configuration with negative and large numbers is read back, also without its radius and curve. -/
theorem read_without_walls : walls.bucketSize < 2 ^ 64 ∧ walls.maxRounds < 2 ^ 64 ∧
    (∀ x ∈ walls.numbers, x.isFinite = true → Decimal.ReadsBack x) ∧ read walls.write = .ok walls ∧
    read (walls.toJson.without ["halo_radius", "curve"]).pretty = .ok { walls with
      haloRadius := .perParticle 2
      curve := .hilbert } := by
  have hnumbers : ∀ x ∈ walls.numbers, x.isFinite = true → Decimal.ReadsBack x := by decide +kernel
  have hcheck : walls.check = .ok () := by
    rw [check_eq_ok_iff, checkRadius_eq_ok_iff]
    exact ⟨by decide, by decide +kernel, by decide +kernel, by decide, fun a => by cases a <;> decide +kernel⟩
  have hreset : (walls.reset ["halo_radius", "curve"]).check = .ok () := by
    rw [check_eq_ok_iff, checkRadius_eq_ok_iff]
    exact ⟨by decide, by decide +kernel, by decide +kernel, by decide, fun a => by cases a <;> decide +kernel⟩
  have hread := read_without walls (by decide) (by decide) hnumbers
  exact ⟨by decide, by decide, hnumbers, hread.1 hcheck, (hread.2 _ hreset).1⟩

end Config

end CurvePartition
