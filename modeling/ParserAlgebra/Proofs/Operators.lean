import ParserAlgebra.Catalogue.Readers
import ParserAlgebra.Parser.Tokens
import ParserAlgebra.Proofs.Operators.Interchangeable
import ParserAlgebra.Proofs.Operators.Regions

/-!
# Proofs/Operators — bracketing does not matter

    ((a | b) | (c & d)) | e      ⟶      alternative(a, b, sequence(c, d), e)

However parsers are put together with the operators, the outcome is what one call on the operands of
each region comes to.  Each operator checks its operands when it is applied, though, and each makes
a parser of its own that remembers what it was chained from.  So there are two things to follow
through an expression: that what is remembered are the operands of the region so far, in order
(`Mirrors`), and that the checks on parts of a region refuse nothing that the check on the whole
region admits, nor admit a region that it refuses.
-/

namespace ParserAlgebra

variable {P : Type}

/-- **A typed parser that no operator made.** -/
structure Parser.Operand (p : Parser P) : Prop extends p.Typed where
  chain_eq : p.chain = none

/-- **An expression of operators on parsers.** -/
inductive OperatorTree (P : Type) where
  | leaf (p : Parser P)
  | node (junction : Junction) (left right : OperatorTree P)

/-- What something stands for in a region around it: its operands, if it is a region of the same
kind. -/
def RegionTree.operandsOf (j : Junction) : RegionTree P → List (RegionTree P)
  | leaf p => [leaf p]
  | region k ts => if k = j then ts else [region k ts]

namespace OperatorTree

/-- The parsers in an expression, from left to right. -/
def leaves : OperatorTree P → List (Parser P)
  | leaf p => [p]
  | node _ l r => l.leaves ++ r.leaves

/-- There is one operator in the expression, if any. -/
def Only (j : Junction) : OperatorTree P → Prop
  | leaf _ => True
  | node k l r => k = j ∧ l.Only j ∧ r.Only j

/-- The operands of the region at the top, from left to right. -/
def operands (j : Junction) : OperatorTree P → List (OperatorTree P)
  | leaf p => [leaf p]
  | node k l r => if k = j then l.operands j ++ r.operands j else [node k l r]

/-- **Every region collapsed into one call.** -/
def collapse : OperatorTree P → RegionTree P
  | leaf p => .leaf p
  | node j l r => .region j (l.collapse.operandsOf j ++ r.collapse.operandsOf j)

/-- **The parser that is written with the operators**, operands first. -/
def write [Labelled P] : OperatorTree P → Except (Error P) (Parser P)
  | leaf p => .ok p
  | node .sequence l r => do (← l.write).both (← r.write)
  | node .alternative l r => do (← l.write).either (← r.write)

/-! ## Collapsing -/

theorem operandsOf_collapse (j : Junction) (t : OperatorTree P) :
    t.collapse.operandsOf j = (t.operands j).map collapse := by
  induction t with
  | leaf p => rfl
  | node k l r ihl ihr =>
    rw [collapse, RegionTree.operandsOf, operands]
    split
    · rename_i hk
      rw [hk, ihl, ihr, List.map_append]
    · rw [List.map_singleton, collapse]

/-- **A region is collapsed into a call on its operands**, collapsed themselves. -/
theorem collapse_node (j : Junction) (l r : OperatorTree P) :
    (node j l r).collapse = .region j (((node j l r).operands j).map collapse) := by
  rw [collapse, operandsOf_collapse, operandsOf_collapse, operands, if_pos rfl, List.map_append]

/-- With one operator all parsers are operands of one region. -/
theorem operandsOf_of_only {j : Junction} {t : OperatorTree P} (h : t.Only j) :
    t.collapse.operandsOf j = t.leaves.map .leaf := by
  induction t with
  | leaf p => rfl
  | node k l r ihl ihr =>
    obtain ⟨rfl, hl, hr⟩ := h
    rw [collapse, RegionTree.operandsOf, if_pos rfl, ihl hl, ihr hr, leaves, List.map_append]

end OperatorTree

namespace RegionTree

theorem Plain.operandsOf {t : RegionTree P} (h : t.Plain) (j : Junction) :
    1 ≤ (t.operandsOf j).length ∧ ∀ u ∈ t.operandsOf j, u.Plain := by
  match h with
  | .leaf hp => exact ⟨Nat.le_refl 1, List.forall_mem_singleton.2 (.leaf hp)⟩
  | .region hl hts =>
    rw [RegionTree.operandsOf]
    split
    · exact ⟨Nat.le_of_succ_le hl, hts⟩
    · exact ⟨Nat.le_refl 1, List.forall_mem_singleton.2 (.region hl hts)⟩

/-- A region that is put together from two sides has two operands or more. -/
theorem Plain.append {t u : RegionTree P} (ht : t.Plain) (hu : u.Plain) (j : Junction) :
    (RegionTree.region j (t.operandsOf j ++ u.operandsOf j)).Plain := by
  obtain ⟨hl, hlp⟩ := ht.operandsOf j
  obtain ⟨hr, hrp⟩ := hu.operandsOf j
  refine .region ?_ fun v hv => (List.mem_append.1 hv).elim (hlp v) (hrp v)
  rw [List.length_append]
  omega

variable [Labelled P]

/-- A clash of an operand is one of the region. -/
theorem Clash.of_operandsOf {j : Junction} {t u : RegionTree P} (hu : u ∈ t.operandsOf j)
    (h : u.Clash) : t.Clash := by
  match t with
  | .leaf p =>
    obtain rfl := List.mem_singleton.1 hu
    exact h
  | .region k ts =>
    rw [RegionTree.operandsOf] at hu
    split at hu
    · exact .inside hu h
    · obtain rfl := List.mem_singleton.1 hu
      exact h

/-- **A clash in a part of a region is one of the whole region.** -/
theorem Clash.in_region {j : Junction} {t : RegionTree P} (h : t.Clash)
    {ts : List (RegionTree P)} (hts : ∀ u ∈ t.operandsOf j, u ∈ ts) : (region j ts).Clash := by
  match t with
  | .region k us =>
    rw [RegionTree.operandsOf] at hts
    split at hts
    · rename_i hk
      subst hk
      match h with
      | .here ht hu hp hq hm hn hd => exact .here (hts _ ht) (hts _ hu) hp hq hm hn hd
      | .inside ht hc => exact .inside (hts _ ht) hc
    · exact .inside (hts _ (List.mem_singleton.2 rfl)) h

end RegionTree

/-! ## What is remembered -/

/-- **A parser mirrors a grammar**: nothing tells it from what the grammar builds, and the same goes
for the operands that it remembers. -/
structure Mirrors [Primitive P] (p : Parser P) (t : RegionTree P) : Prop where
  itself : ∃ q, t.build = .ok q ∧ Interchangeable p q
  operands : ∀ j, ∃ qs, RegionTree.buildAll (t.operandsOf j) = .ok qs ∧
    List.Forall₂ Interchangeable (p.operands j) qs

section

variable [Primitive P]

/-- What is interchangeable with typed parsers is typed. -/
theorem Interchangeable.typed {ps qs : List (Parser P)} (h : List.Forall₂ Interchangeable ps qs)
    (hq : ∀ q ∈ qs, q.Typed) : ∀ p ∈ ps, p.Typed := by
  induction h with
  | nil => exact hq
  | cons hp _ ih =>
    obtain ⟨hq, hqs⟩ := List.forall_mem_cons.1 hq
    refine List.forall_mem_cons.2 ⟨⟨?_, fun n hn => ?_⟩, ih hqs⟩
    · rw [hp.name_eq]
      exact hq.name_isText
    · exact hq.declared_isNumber n (hp.declared_eq ▸ hn)

/-- Interchangeable parsers differ alike. -/
theorem Interchangeable.differ {ps qs : List (Parser P)} (h : List.Forall₂ Interchangeable ps qs)
    (hq : ∀ q ∈ qs, q.Typed) : Differ ps ↔ Differ qs := by
  rw [← Parser.agree_eq_false_iff (typed h hq), ← Parser.agree_eq_false_iff hq, knownArities_eq h]

theorem Interchangeable.joined {ps qs : List (Parser P)} (h : List.Forall₂ Interchangeable ps qs)
    (j : Junction) : Interchangeable (Parser.joined j ps) (Parser.joined j qs) := by
  match j with
  | .sequence => exact sequenced h
  | .alternative => exact alternated h

/-- A parser that no operator made is its only operand. -/
theorem mirrors_leaf {p : Parser P} (h : p.chain = none) : Mirrors p (.leaf p) := by
  refine ⟨⟨p, rfl, .refl p⟩, fun j => ⟨[p], rfl, ?_⟩⟩
  rw [Parser.operands, h]
  exact .cons (.refl p) .nil

/-- **An operator remembers the operands of the region**, and makes what a call on them makes. -/
theorem Mirrors.chained {p q : Parser P} {j : Junction} {ts : List (RegionTree P)}
    {qs : List (Parser P)} (hqs : RegionTree.buildAll ts = .ok qs)
    (h : List.Forall₂ Interchangeable (p.operands j ++ q.operands j) qs)
    (hp : Parser.join j (p.operands j ++ q.operands j) =
      .ok (Parser.joined j (p.operands j ++ q.operands j)))
    (hq : Parser.join j qs = .ok (Parser.joined j qs)) :
    ∃ r, Parser.chained j p q = .ok r ∧ Mirrors r (.region j ts) := by
  let parts := p.operands j ++ q.operands j
  let r := { Parser.joined j parts with chain := some (j, parts) }
  have hr : Parser.chained j p q = .ok r := by
    rw [Parser.chained, hp]
    rfl
  have hbuild : (RegionTree.region j ts).build = .ok (Parser.joined j qs) := by
    rw [RegionTree.build, hqs]
    exact hq
  have alike : Interchangeable r (Parser.joined j qs) :=
    (Interchangeable.rechain _ _).trans (.joined h j)
  refine ⟨r, hr, ⟨_, hbuild, alike⟩, fun k => ?_⟩
  change ∃ rs, _ ∧ List.Forall₂ Interchangeable (if j = k then parts else [r]) rs
  rw [RegionTree.operandsOf]
  split
  · exact ⟨qs, hqs, h⟩
  · exact ⟨[Parser.joined j qs], RegionTree.buildAll_cons hbuild rfl, .cons alike .nil⟩

/-- **One operator more**: it refuses its operands exactly if the whole region clashes, when neither
side does. -/
theorem Mirrors.operator {p q : Parser P} {t u : RegionTree P} (hp : Mirrors p t)
    (hq : Mirrors q u) (ht : t.Plain) (hu : u.Plain) (hct : ¬ t.Clash) (hcu : ¬ u.Clash)
    (j : Junction) :
    let whole := RegionTree.region j (t.operandsOf j ++ u.operandsOf j)
    whole.Clash ∧ Refused (Parser.chained j p q) ∨
      ¬ whole.Clash ∧ ∃ r, Parser.chained j p q = .ok r ∧ Mirrors r whole := by
  obtain ⟨ps, hps, hpps⟩ := hp.operands j
  obtain ⟨qs, hqs, hqqs⟩ := hq.operands j
  have hrs := RegionTree.buildAll_append hps hqs
  have alike : List.Forall₂ Interchangeable (p.operands j ++ q.operands j) (ps ++ qs) :=
    List.rel_append hpps hqqs
  have hnone : ∀ v ∈ t.operandsOf j ++ u.operandsOf j, ¬ v.Clash := fun v hv hc =>
    (List.mem_append.1 hv).elim (fun hv => hct (hc.of_operandsOf hv))
      fun hv => hcu (hc.of_operandsOf hv)
  match ht.append hu j with
  | .region hl hplain =>
    have hl : 2 ≤ (ps ++ qs).length := RegionTree.length_of_buildAll hrs ▸ hl
    have typed : ∀ r ∈ ps ++ qs, r.Typed := by
      intro r hr
      obtain ⟨v, hv, hr⟩ := (RegionTree.mem_of_buildAll hrs).1 hr
      exact (hplain v hv).typed hr
    have hl' : 2 ≤ (p.operands j ++ q.operands j).length := alike.length_eq ▸ hl
    have typed' := Interchangeable.typed alike typed
    have differ := Interchangeable.differ alike typed
    by_cases hd : j = .alternative ∧ Differ (ps ++ qs)
    · refine .inl ⟨(RegionTree.clash_region_iff hrs hnone).2 hd, ?_⟩
      obtain ⟨rfl, hd⟩ := hd
      exact (Parser.refused_join typed' hl' (differ.2 hd)).bind _
    · have hd' : ¬ (j = .alternative ∧ Differ (p.operands j ++ q.operands j)) := by
        rw [differ]
        exact hd
      exact .inr ⟨fun hc => hd ((RegionTree.clash_region_iff hrs hnone).1 hc),
        Mirrors.chained hrs alike (Parser.join_of_typed typed' hl' hd')
          (Parser.join_of_typed typed hl hd)⟩

end

/-! ## Operators and calls -/

namespace OperatorTree

theorem write_node [Labelled P] (j : Junction) (l r : OperatorTree P) :
    (node j l r).write = (do Parser.chained j (← l.write) (← r.write)) := by
  match j with
  | .sequence => rfl
  | .alternative => rfl

/-- Typed parsers make plain regions. -/
theorem plain_collapse {t : OperatorTree P} (h : ∀ p ∈ t.leaves, p.Typed) : t.collapse.Plain := by
  induction t with
  | leaf p => exact .leaf (h p (List.mem_singleton.2 rfl))
  | node j l r ihl ihr =>
    have hl := ihl fun p hp => h p (List.mem_append_left _ hp)
    have hr := ihr fun p hp => h p (List.mem_append_right _ hp)
    exact hl.append hr j

variable [Primitive P]

/-- **What is written with operators is refused if there is a clash, and mirrors the calls if there
is none.** -/
theorem write_settled {t : OperatorTree P} (h : ∀ p ∈ t.leaves, p.Operand) :
    t.collapse.Clash ∧ Refused t.write ∨
      ¬ t.collapse.Clash ∧ ∃ p, t.write = .ok p ∧ Mirrors p t.collapse := by
  induction t with
  | leaf p =>
    have operand := h p (List.mem_singleton.2 rfl)
    exact .inr ⟨fun hc => (nomatch hc), p, rfl, mirrors_leaf operand.chain_eq⟩
  | node j l r ihl ihr =>
    have hl : ∀ p ∈ l.leaves, p.Operand := fun p hp => h p (List.mem_append_left _ hp)
    have hr : ∀ p ∈ r.leaves, p.Operand := fun p hp => h p (List.mem_append_right _ hp)
    rw [write_node, collapse]
    -- A clash on one side ends it there, and is one of the whole region.
    obtain ⟨hc, refused⟩ | ⟨hcl, p, hp, hpm⟩ := ihl hl
    · exact .inl ⟨hc.in_region fun u hu => List.mem_append_left _ hu, refused.bind _⟩
    rw [hp]
    obtain ⟨hc, refused⟩ | ⟨hcr, q, hq, hqm⟩ := ihr hr
    · exact .inl ⟨hc.in_region fun u hu => List.mem_append_right _ hu, refused.bind _⟩
    have hlp := plain_collapse fun p hp => (hl p hp).toTyped
    have hrp := plain_collapse fun p hp => (hr p hp).toTyped
    rw [hq]
    exact hpm.operator hqm hlp hrp hcl hcr j

/-- With one operator, the call is a single one on all parsers. -/
theorem build_of_only {j : Junction} {t : OperatorTree P} (h : t.Only j) :
    t.collapse.build = Parser.join j t.leaves := by
  match t with
  | leaf p =>
    match j with
    | .sequence => rfl
    | .alternative => rfl
  | node k l r =>
    obtain ⟨rfl, hl, hr⟩ := h
    rw [collapse, RegionTree.build, operandsOf_of_only hl, operandsOf_of_only hr,
      ← List.map_append, RegionTree.buildAll_leaves]
    rfl

/-- **Bracketing does not matter.**  Whatever is written with operators on typed parsers, and the
same with one call for each region: one is refused exactly if the other is, and that is if an
alternative has two operands that are known to differ.  Otherwise both are put together, and nothing
tells them apart.  With one operator, the call is a single one on all parsers, in order. -/
theorem write_interchangeable {t : OperatorTree P} (h : ∀ p ∈ t.leaves, p.Operand) :
    (Refused t.write ↔ t.collapse.Clash) ∧ (Refused t.collapse.build ↔ t.collapse.Clash) ∧
    (¬ t.collapse.Clash → ∃ p q, t.write = .ok p ∧ t.collapse.build = .ok q ∧
      Interchangeable p q) ∧
    ∀ j, t.Only j → t.collapse.build = Parser.join j t.leaves := by
  have built := (plain_collapse fun p hp => (h p hp).toTyped).settled
  obtain ⟨hc, hw⟩ | ⟨hc, p, hp, mirrors⟩ := write_settled h
  · obtain ⟨_, hb⟩ | ⟨hn, _⟩ := built
    · exact ⟨iff_of_true hw hc, iff_of_true hb hc, fun hn => absurd hc hn,
        fun j => build_of_only⟩
    · exact absurd hc hn
  · obtain ⟨q, hq, alike⟩ := mirrors.itself
    have hw : ¬ Refused t.write := fun refused => refused.ne_ok p hp
    have hb : ¬ Refused t.collapse.build := fun refused => refused.ne_ok q hq
    exact ⟨iff_of_false hw hc, iff_of_false hb hc, fun _ => ⟨p, q, hp, hq, alike⟩,
      fun j => build_of_only⟩

end OperatorTree

/-- One operand used twice: (a | b) | a cannot be told from the alternative of all three. -/
theorem write_interchangeable_repeated :
    let a : Parser Catalogue := .token (.ofText "a")
    let b : Parser Catalogue := .token (.ofText "b")
    (∀ p ∈ [a, b, a], p.Operand) ∧
    ∃ p q, (do (← a.either b).either a) = .ok p ∧ Parser.alternative [a, b, a] = .ok q ∧
      Interchangeable p q := by
  intro a b
  let t : OperatorTree Catalogue :=
    .node .alternative (.node .alternative (.leaf a) (.leaf b)) (.leaf a)
  have operand (x : Value Catalogue) (hx : x.form.isText = true) : (Parser.token x).Operand := by
    refine ⟨⟨hx, fun n hn => ?_⟩, rfl⟩
    obtain rfl : Value.ofInt 1 = n := Option.some.inj hn
    rfl
  have operands : ∀ p ∈ t.leaves, p.Operand := by
    rintro p (_ | ⟨_, _ | ⟨_, _ | ⟨_, ⟨⟩⟩⟩⟩)
    · exact operand _ rfl
    · exact operand _ rfl
    · exact operand _ rfl
  obtain ⟨_, refused, built, only⟩ := OperatorTree.write_interchangeable operands
  have clear : ¬ t.collapse.Clash := by
    rw [← refused]
    rintro ⟨e, he⟩
    contradiction
  obtain ⟨p, q, hp, hq, alike⟩ := built clear
  rw [only .alternative ⟨rfl, ⟨rfl, trivial, trivial⟩, trivial⟩] at hq
  exact ⟨operands, p, q, hp, hq, alike⟩

end ParserAlgebra
