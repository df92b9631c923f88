import ParserAlgebra.Parser.Combinators

/-!
# Proofs/Operators/Regions — grammars that are written with one call for each region

    region |
    ├─ a
    ├─ region &      ⟶   alternative(a, sequence(b, c), d)
    │  ├─ b
    │  └─ c
    └─ d

A region is a call of `sequence` or `alternative` on all its operands, from left to right, and an
operand is a parser or another region.  If the parsers are typed (`Parser.Typed`), there is one
thing that the calls can refuse: an alternative of operands that are known to differ, anywhere in
the tree (`RegionTree.Clash`).
-/

namespace ParserAlgebra

variable {P : Type}

/-- **A parser whose name is a text and whose arity is a number**, if it has one. -/
structure Parser.Typed (p : Parser P) : Prop where
  name_isText : p.name.isText = true
  declared_isNumber : ∀ n, p.declared = some n → n.number?.isSome = true

/-- **Refused**: a grammar cannot be put together that way. -/
def Refused {α : Type} (x : Except (Error P) α) : Prop := ∃ e, x = .error (.grammar e)

/-- Nothing is made of what was refused. -/
theorem Refused.bind {α β : Type} {x : Except (Error P) α} (h : Refused x)
    (f : α → Except (Error P) β) : Refused (x >>= f) := by
  obtain ⟨e, he⟩ := h
  refine ⟨e, ?_⟩
  rw [he]
  rfl

/-- What was refused was not made. -/
theorem Refused.ne_ok {α : Type} {x : Except (Error P) α} (h : Refused x) (a : α) : x ≠ .ok a := by
  obtain ⟨e, he⟩ := h
  rw [he]
  intro ha
  contradiction

/-- Two of the parsers are known to produce different numbers of components. -/
def Differ (ps : List (Parser P)) : Prop :=
  ∃ p ∈ ps, ∃ q ∈ ps, ∃ m n, p.declared = some m ∧ q.declared = some n ∧ m.equals n = false

/-! ## Joining typed parsers -/

namespace Parser

theorem isNumber_of_mem_knownArities {ps : List (Parser P)} (h : ∀ p ∈ ps, p.Typed) {n : Value P}
    (hn : n ∈ knownArities ps) : n.number?.isSome = true := by
  obtain ⟨p, hp, hd⟩ := mem_knownArities.1 hn
  exact (h p hp).declared_isNumber n hd

/-- A number can be hashed, and it can be written. -/
theorem isHashable_of_isNumber {x : Value P} (h : x.number?.isSome = true) :
    x.isHashable = true ∧ x.isWritable = true := by
  match x with
  | .bool _ => exact ⟨rfl, rfl⟩
  | .int _ _ => exact ⟨rfl, rfl⟩
  | .decimal _ _ => exact ⟨rfl, rfl⟩

theorem isWritable_of_isText {x : Value P} (h : x.isText = true) : x.isWritable = true := by
  match x with
  | .text _ _ => rfl

theorem allHashable_of_isNumber {xs : List (Value P)} (h : ∀ x ∈ xs, x.number?.isSome = true) :
    Value.allHashable xs = true := by
  induction xs with
  | nil => rfl
  | cons x xs ih =>
    obtain ⟨hx, hxs⟩ := List.forall_mem_cons.1 h
    rw [Value.allHashable, (isHashable_of_isNumber hx).1, ih hxs, Bool.true_and]

theorem allNamed_of_typed {ps : List (Parser P)} (h : ∀ p ∈ ps, p.Typed) : allNamed ps = true :=
  List.all_eq_true.2 fun p hp => (h p hp).name_isText

/-- Numbers are added up, or one of them is unknown. -/
theorem summable_of_typed {ps : List (Parser P)} (h : ∀ p ∈ ps, p.Typed) : summable ps = true := by
  unfold summable
  rw [List.all_eq_true.2 fun n hn => isNumber_of_mem_knownArities h hn, Bool.or_true]

/-- Arities that do not differ from the first are all the same number. -/
theorem exists_same_of_agree {ns : List (Value P)} (h : ∀ n ∈ ns, n.number?.isSome = true)
    (ha : agree ns = true) : ∃ i : Number, ∀ n ∈ ns, ∃ j, n.number? = some j ∧ i.same j = true := by
  match ns with
  | [] => exact ⟨.int 0, fun n hn => by contradiction⟩
  | k :: ks =>
    obtain ⟨i, hi⟩ := Option.isSome_iff_exists.1 (h k List.mem_cons_self)
    refine ⟨i, fun n hn => ?_⟩
    obtain ⟨j, hj⟩ := Option.isSome_iff_exists.1 (h n hn)
    refine ⟨j, hj, ?_⟩
    obtain rfl | hn := List.mem_cons.1 hn
    · obtain rfl : i = j := Option.some.inj (hi.symm.trans hj)
      exact Number.same_self i
    · have hashable := (isHashable_of_isNumber (h k List.mem_cons_self)).1
      obtain ⟨l, hl, hs⟩ :=
        Value.exists_number_of_equals (List.all_eq_true.1 ha n hn) hashable hj
      obtain rfl : i = l := Option.some.inj (hi.symm.trans hl)
      exact hs

/-- **Two known arities differ exactly if one of them differs from the first.** -/
theorem agree_eq_false_iff {ps : List (Parser P)} (h : ∀ p ∈ ps, p.Typed) :
    agree (knownArities ps) = false ↔ Differ ps := by
  constructor
  · intro ha
    match hk : knownArities ps with
    | [] =>
      rw [hk] at ha
      contradiction
    | m :: ms =>
      rw [hk, agree, List.all_eq_false] at ha
      obtain ⟨n, hn, hd⟩ := ha
      obtain ⟨p, hp, hm⟩ := mem_knownArities.1 (hk ▸ List.mem_cons_self : m ∈ knownArities ps)
      obtain ⟨q, hq, hn⟩ := mem_knownArities.1 (hk ▸ List.mem_cons_of_mem m hn)
      exact ⟨p, hp, q, hq, m, n, hm, hn, by simpa using hd⟩
  · rintro ⟨p, hp, q, hq, m, n, hm, hn, hd⟩
    rw [← Bool.not_eq_true]
    intro ha
    obtain ⟨i, hi⟩ := exists_same_of_agree (fun x => isNumber_of_mem_knownArities h) ha
    obtain ⟨j, hj, hij⟩ := hi m (mem_knownArities.2 ⟨p, hp, hm⟩)
    obtain ⟨k, hk, hik⟩ := hi n (mem_knownArities.2 ⟨q, hq, hn⟩)
    have equal := Value.equals_of_same hj hk (Number.same_trans (Number.same_symm hij) hik)
    rw [hd] at equal
    contradiction

/-- What alternatives differ in can be shown. -/
theorem branchesDiffer_of_typed {ps : List (Parser P)} (h : ∀ p ∈ ps, p.Typed) :
    ∃ shapes, branchesDiffer ps = .grammar (.branchesDiffer shapes) := by
  refine ⟨_, if_pos (List.all_eq_true.2 fun s hs => ?_)⟩
  obtain ⟨p, hp, hs⟩ := List.mem_filterMap.1 hs
  obtain ⟨n, hn, rfl⟩ := Option.map_eq_some_iff.1 hs
  have number := (h p hp).declared_isNumber n hn
  rw [isWritable_of_isText (h p hp).name_isText, (isHashable_of_isNumber number).2, Bool.true_and]

section

variable [Labelled P]

/-- What a combinator makes of its operands, if it admits them. -/
def joined : Junction → List (Parser P) → Parser P
  | .sequence => sequenced
  | .alternative => alternated

/-- A sequence is typed, whatever it is made of. -/
theorem typed_sequenced (ps : List (Parser P)) : (sequenced ps).Typed := by
  refine ⟨rfl, fun n hn => ?_⟩
  obtain ⟨m, _, rfl⟩ := Option.map_eq_some_iff.1 hn
  rw [Value.number?_ofNumber]
  rfl

/-- **A typed join is typed.** -/
theorem typed_joined {ps : List (Parser P)} (h : ∀ p ∈ ps, p.Typed) (j : Junction) :
    (joined j ps).Typed := by
  match j with
  | .sequence => exact typed_sequenced ps
  | .alternative =>
    refine ⟨rfl, fun n (hn : sharedArity ps = some n) => ?_⟩
    unfold sharedArity at hn
    split at hn
    · exact isNumber_of_mem_knownArities h (List.mem_of_head? hn)
    · contradiction

/-- **Two typed parsers or more can be joined, unless they are alternatives that differ.** -/
theorem join_of_typed {ps : List (Parser P)} (h : ∀ p ∈ ps, p.Typed) (hl : 2 ≤ ps.length)
    {j : Junction} (hj : ¬ (j = .alternative ∧ Differ ps)) : join j ps = .ok (joined j ps) := by
  match ps with
  | p :: q :: ps =>
    match j with
    | .sequence => exact sequence_cons_cons (summable_of_typed h) (allNamed_of_typed h)
    | .alternative =>
      have ha : agree (knownArities (p :: q :: ps)) = true := by
        rw [← Bool.not_eq_false, agree_eq_false_iff h]
        exact fun hd => hj ⟨rfl, hd⟩
      have hh := allHashable_of_isNumber fun n hn => isNumber_of_mem_knownArities h hn
      change alternative (p :: q :: ps) = _
      rw [alternative.eq_def]
      simp only [hh, ha, allNamed_of_typed h, if_true]
      rfl

/-- **Alternatives that differ are refused.** -/
theorem refused_join {ps : List (Parser P)} (h : ∀ p ∈ ps, p.Typed) (hl : 2 ≤ ps.length)
    (hd : Differ ps) : Refused (join .alternative ps) := by
  obtain ⟨shapes, refusal⟩ := branchesDiffer_of_typed h
  match ps, hl with
  | p :: q :: ps, _ =>
    have ha := (agree_eq_false_iff h).2 hd
    have hh := allHashable_of_isNumber fun n hn => isNumber_of_mem_knownArities h hn
    refine ⟨.branchesDiffer shapes, ?_⟩
    change alternative (p :: q :: ps) = _
    rw [alternative.eq_def]
    simp only [hh, ha, if_true, Bool.false_eq_true, if_false]
    rw [refusal]

end

end Parser

/-! ## Regions -/

/-- **A grammar of regions**: a parser, or one call on some operands. -/
inductive RegionTree (P : Type) where
  | leaf (p : Parser P)
  | region (junction : Junction) (operands : List (RegionTree P))

namespace RegionTree

/-- **No single parser makes a region**, and the parsers in there are typed. -/
inductive Plain : RegionTree P → Prop
  | leaf {p} (h : p.Typed) : Plain (.leaf p)
  | region {j ts} (hl : 2 ≤ ts.length) (h : ∀ t ∈ ts, Plain t) : Plain (.region j ts)

variable [Labelled P]

mutual

/-- **The parser that is written that way**: the operands first, then the call on them. -/
def build : RegionTree P → Except (Error P) (Parser P)
  | leaf p => .ok p
  | region j ts => do Parser.join j (← buildAll ts)

def buildAll : List (RegionTree P) → Except (Error P) (List (Parser P))
  | [] => .ok []
  | t :: ts => do
    let p ← t.build
    let ps ← buildAll ts
    return p :: ps

end

/-- **Some alternative has two operands that are known to differ.** -/
inductive Clash : RegionTree P → Prop
  | here {ts t u p q m n} (ht : t ∈ ts) (hu : u ∈ ts) (hp : t.build = .ok p) (hq : u.build = .ok q)
      (hm : p.declared = some m) (hn : q.declared = some n) (hd : m.equals n = false) :
      Clash (.region .alternative ts)
  | inside {j ts t} (ht : t ∈ ts) (h : Clash t) : Clash (.region j ts)

theorem buildAll_cons {t : RegionTree P} {ts : List (RegionTree P)} {p : Parser P}
    {ps : List (Parser P)} (h : t.build = .ok p) (hs : buildAll ts = .ok ps) :
    buildAll (t :: ts) = .ok (p :: ps) := by
  rw [buildAll, h, hs]
  rfl

theorem buildAll_append {ts us : List (RegionTree P)} {ps qs : List (Parser P)}
    (ht : buildAll ts = .ok ps) (hu : buildAll us = .ok qs) :
    buildAll (ts ++ us) = .ok (ps ++ qs) := by
  induction ts generalizing ps with
  | nil =>
    obtain rfl : [] = ps := Except.ok.inj ht
    exact hu
  | cons t ts ih =>
    rw [buildAll] at ht
    obtain ⟨p, hp, ht⟩ := exists_ok_of_bind ht
    obtain ⟨rs, hrs, ht⟩ := exists_ok_of_bind ht
    obtain rfl : p :: rs = ps := Except.ok.inj ht
    exact buildAll_cons hp (ih hrs)

theorem buildAll_leaves (ps : List (Parser P)) : buildAll (ps.map leaf) = .ok ps := by
  induction ps with
  | nil => rfl
  | cons p ps ih => exact buildAll_cons rfl ih

/-- What is built of operands is what each of them builds. -/
theorem mem_of_buildAll {ts : List (RegionTree P)} {ps : List (Parser P)} (h : buildAll ts = .ok ps)
    {p : Parser P} : p ∈ ps ↔ ∃ t ∈ ts, t.build = .ok p := by
  induction ts generalizing ps with
  | nil =>
    obtain rfl : [] = ps := Except.ok.inj h
    simp
  | cons t ts ih =>
    rw [buildAll] at h
    obtain ⟨q, hq, h⟩ := exists_ok_of_bind h
    obtain ⟨qs, hqs, h⟩ := exists_ok_of_bind h
    obtain rfl : q :: qs = ps := Except.ok.inj h
    simp [ih hqs, hq, eq_comm]

theorem length_of_buildAll {ts : List (RegionTree P)} {ps : List (Parser P)}
    (h : buildAll ts = .ok ps) : ps.length = ts.length := by
  induction ts generalizing ps with
  | nil =>
    obtain rfl : [] = ps := Except.ok.inj h
    rfl
  | cons t ts ih =>
    rw [buildAll] at h
    obtain ⟨q, hq, h⟩ := exists_ok_of_bind h
    obtain ⟨qs, hqs, h⟩ := exists_ok_of_bind h
    obtain rfl : q :: qs = ps := Except.ok.inj h
    rw [List.length_cons, List.length_cons, ih hqs]

/-- **Operands that are built make a clash exactly if they are alternatives that differ.** -/
theorem clash_region_iff {j : Junction} {ts : List (RegionTree P)} {ps : List (Parser P)}
    (h : buildAll ts = .ok ps) (hts : ∀ t ∈ ts, ¬ t.Clash) :
    (region j ts).Clash ↔ j = .alternative ∧ Differ ps := by
  constructor
  · rintro (⟨ht, hu, hp, hq, hm, hn, hd⟩ | ⟨ht, hc⟩)
    · exact ⟨rfl, _, (mem_of_buildAll h).2 ⟨_, ht, hp⟩, _, (mem_of_buildAll h).2 ⟨_, hu, hq⟩, _, _,
        hm, hn, hd⟩
    · exact absurd hc (hts _ ht)
  · rintro ⟨rfl, p, hp, q, hq, m, n, hm, hn, hd⟩
    obtain ⟨t, ht, hp⟩ := (mem_of_buildAll h).1 hp
    obtain ⟨u, hu, hq⟩ := (mem_of_buildAll h).1 hq
    exact .here ht hu hp hq hm hn hd

/-- **Whether something is built is settled by whether it clashes.** -/
def Settled (t : RegionTree P) : Prop :=
  t.Clash ∧ Refused t.build ∨ ¬ t.Clash ∧ ∃ p, t.build = .ok p ∧ p.Typed

/-- The same, of operands. -/
theorem settled_operands {ts : List (RegionTree P)} (h : ∀ t ∈ ts, t.Settled) :
    (∃ t ∈ ts, t.Clash) ∧ Refused (buildAll ts) ∨
      (∀ t ∈ ts, ¬ t.Clash) ∧ ∃ ps, buildAll ts = .ok ps ∧ ∀ p ∈ ps, p.Typed := by
  induction ts with
  | nil => exact .inr ⟨by simp, [], rfl, by simp⟩
  | cons t ts ih =>
    obtain ⟨ht, hts⟩ := List.forall_mem_cons.1 h
    rw [buildAll]
    obtain ⟨hc, refused⟩ | ⟨hc, p, hp, hpt⟩ := ht
    · exact .inl ⟨⟨t, List.mem_cons_self, hc⟩, refused.bind _⟩
    · rw [hp]
      obtain ⟨⟨u, hu, hc'⟩, refused⟩ | ⟨hc', ps, hps, hpst⟩ := ih hts
      · exact .inl ⟨⟨u, List.mem_cons_of_mem t hu, hc'⟩, refused.bind _⟩
      · refine .inr ⟨List.forall_mem_cons.2 ⟨hc, hc'⟩, p :: ps, ?_,
          List.forall_mem_cons.2 ⟨hpt, hpst⟩⟩
        rw [hps]
        rfl

/-- **A grammar of typed parsers is refused exactly if it clashes.** -/
theorem Plain.settled {t : RegionTree P} (h : t.Plain) : t.Settled := by
  induction h with
  | @leaf p hp => exact .inr ⟨by rintro ⟨⟩, p, rfl, hp⟩
  | @region j ts hl h ih =>
    obtain ⟨⟨u, hu, hc⟩, refused⟩ | ⟨hc, ps, hps, hpt⟩ := settled_operands ih
    · refine .inl ⟨.inside hu hc, ?_⟩
      rw [RegionTree.build]
      exact refused.bind _
    · have hl : 2 ≤ ps.length := length_of_buildAll hps ▸ hl
      have hbuild : (RegionTree.region j ts).build = Parser.join j ps := by
        rw [RegionTree.build, hps]
        rfl
      by_cases hd : j = .alternative ∧ Differ ps
      · obtain ⟨rfl, hdiffer⟩ := hd
        refine .inl ⟨(clash_region_iff hps hc).2 ⟨rfl, hdiffer⟩, ?_⟩
        rw [hbuild]
        exact Parser.refused_join hpt hl hdiffer
      · refine .inr ⟨fun hclash => hd ((clash_region_iff hps hc).1 hclash), _, ?_,
          Parser.typed_joined hpt j⟩
        rw [hbuild, Parser.join_of_typed hpt hl hd]

theorem Plain.typed {t : RegionTree P} (h : t.Plain) {p : Parser P} (hp : t.build = .ok p) :
    p.Typed := by
  obtain ⟨_, refused⟩ | ⟨_, q, hq, hqt⟩ := h.settled
  · exact absurd hp (refused.ne_ok p)
  · obtain rfl : p = q := Except.ok.inj (hp.symm.trans hq)
    exact hqt

end RegionTree

end ParserAlgebra
