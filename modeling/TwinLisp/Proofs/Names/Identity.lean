import TwinLisp.Proofs.Names.Ledger

/-! Vars have an identity. A pair of a namespace and a name denotes one Var for ever, whatever is done
with namespaces and Vars, and no two pairs share one.

* `Names.Ledger.var?_record`: no operation takes a Var from its pair.
* `Names.vars_keep_identity`: what runs of operations leave as it is.
* `Names.runs_fresh`: the natives of a new interpreter are the outcome of such a run. -/

namespace TwinLisp.Names

variable {base : Nat} {ns name : String} {L : Ledger} {s t : State} {ops : List Op} {v w : Var}

/-! ## Pairs are never forgotten -/

namespace Ledger

theorem keys_intern (key : String × String) (L : Ledger) :
    ∃ more, (L.intern key).keys = L.keys ++ more := by
  unfold intern
  split
  · exact ⟨[], by simp⟩
  · exact ⟨[key], rfl⟩

theorem keys_record (L : Ledger) (op : Op) : ∃ more, (L.record op).keys = L.keys ++ more := by
  cases op with
  | intern name => exact keys_intern _ L
  | internIn ns name => exact keys_intern _ L
  | enter ns => exact ⟨[], by simp [record]⟩
  | define target value =>
    simp only [record]
    split
    · exact ⟨[], by simp⟩
    · cases value with
      | none => exact keys_intern _ L
      | some x => exact keys_intern _ L
  | assign v x => exact ⟨[], by simp [record, bind, change]⟩
  | mark v flag => exact ⟨[], by simp [record, change]⟩

theorem var?_record (h : L.var? base ns name = some v) (op : Op) :
    (L.record op).var? base ns name = some v := by
  obtain ⟨hk, rfl⟩ := var?_eq_some_iff.mp h
  obtain ⟨more, hm⟩ := keys_record L op
  rw [var?_eq_some_iff, hm, List.idxOf_append_of_mem hk]
  exact ⟨List.mem_append_left _ hk, rfl⟩

theorem var?_foldl (ops : List Op) (h : L.var? base ns name = some v) :
    (ops.foldl record L).var? base ns name = some v := by
  induction ops generalizing L with
  | nil => exact h
  | cons op rest ih => exact ih (var?_record h op)

namespace Shows

theorem keeps (hL : L.Shows base s) (hv : s.names.find? ns name = some v) (h : Runs s ops t) :
    t.names.find? ns name = some v := by
  rw [(h.shows hL).find?]
  exact var?_foldl ops ((hL.find? ns name).symm.trans hv)

theorem inj (hL : L.Shows base s) {ns' name' : String} (hv : s.names.find? ns name = some v)
    (hw : s.names.find? ns' name' = some w) (he : w.id = v.id) : ns' = ns ∧ name' = name := by
  rw [hL.find?, var?_eq_some_iff] at hv hw
  obtain ⟨hkv, rfl⟩ := hv
  obtain ⟨hkw, rfl⟩ := hw
  have hidx : L.keys.idxOf (ns', name') = L.keys.idxOf (ns, name) := Nat.add_left_cancel he
  exact Prod.mk.inj ((List.idxOf_inj hkw).mp hidx)

theorem find?_isSome (hL : L.Shows base s) :
    (s.names.find? ns name).isSome ↔ (ns, name) ∈ L.keys := by
  rw [hL.find?, var?]
  split <;> simp_all

theorem content (hL : L.Shows base s) (hv : s.names.find? ns name = some v) :
    s.store.vars[v.id]? = some (L.holds (ns, name)) := by
  rw [hL.find?, var?_eq_some_iff] at hv
  obtain ⟨hk, rfl⟩ := hv
  exact hL.holds _ hk

theorem lookup? (hL : L.Shows base s) (name : String) :
    s.names.lookup? name =
      if (s.names.current, name) ∈ L.keys then s.names.find? s.names.current name
      else if (coreNamespace, name) ∈ L.keys then s.names.find? coreNamespace name
      else none := by
  rw [Names.lookup?, hL.find?, hL.find?, var?, var?]
  split <;> split <;> simp_all

theorem defined (hL : L.Shows base s) {target : Form} (h : Parse.definedVar target s = .ok v t) :
    ∃ symbol name, target.symbol? = some symbol ∧ ownName? s.names.current symbol = some name ∧
      t.names.current = s.names.current ∧ t.names.find? s.names.current name = some v ∧
      (L.intern (s.names.current, name)).Shows base t := by
  cases ho : target.symbol?.bind (ownName? s.names.current) with
  | none =>
    obtain ⟨e, he⟩ := definedVar_refused ho
    rw [he] at h
    cases h
  | some name =>
    obtain ⟨symbol, hs, hn⟩ := Option.bind_eq_some_iff.mp ho
    obtain ⟨v', t', ht, hshow, hv⟩ := hL.intern ParseError s.names.current name
    rw [definedVar_of_own ho, ht] at h
    cases h
    exact ⟨symbol, name, hs, hn, by rw [hshow.current, current_intern, hL.current], hv, hshow⟩

end Shows

end Ledger

theorem resolve?_own {t : Names} {symbol : String} (ho : ownName? t.current symbol = some name)
    (hv : t.find? t.current name = some v) : t.resolve? symbol = some v := by
  unfold ownName? at ho
  unfold resolve?
  cases hs : splitQualified symbol with
  | none =>
    rw [hs] at ho
    cases ho
    exact lookup?_of_find? hv
  | some parts =>
    obtain ⟨ns, plain⟩ := parts
    rw [hs] at ho
    dsimp only at ho
    split at ho
    · next hns =>
      cases ho
      subst hns
      exact hv
    · cases ho

/-! ## Identity -/

/-- After any operations on an empty table: a pair has one Var, which is its Var ever after and no other
pair's; to intern the pair again yields it, and it holds what was last put into it. An unqualified name is
looked up in the current namespace and then in the core's, a qualified one in its own. A symbol that was
defined is resolved, in the same namespace, to the Var of the definition. Names are listed in the order in
which they were first interned, and to change the namespace changes nothing else. -/
theorem vars_keep_identity (store : Store) (config : Config)
    (h : Runs (State.bare store config) ops s) :
    (∀ ns name, ∃ v t, (Act.internIn ns name : Parse Var) s = .ok v t ∧
      t.names.find? ns name = some v) ∧
    (∀ ns name v, s.names.find? ns name = some v →
      (Act.internIn ns name : Parse Var) s = .ok v s ∧
      s.store.vars[v.id]? = some ((Ledger.of ops).holds (ns, name)) ∧
      (∀ ns' name' w, s.names.find? ns' name' = some w → w.id = v.id → ns' = ns ∧ name' = name) ∧
      ∀ more t, Runs s more t → t.names.find? ns name = some v) ∧
    (∀ ns name, (s.names.find? ns name).isSome ↔ (ns, name) ∈ (Ledger.of ops).keys) ∧
    (∀ name, s.names.lookup? name =
      if (s.names.current, name) ∈ (Ledger.of ops).keys then s.names.find? s.names.current name
      else if (coreNamespace, name) ∈ (Ledger.of ops).keys then s.names.find? coreNamespace name
      else none) ∧
    (∀ ns name, '/' ∉ ns.toList → ns ≠ "" → name ≠ "" →
      s.names.resolve? (ns ++ "/" ++ name) = s.names.find? ns name) ∧
    (∀ target v t, Parse.definedVar target s = .ok v t →
      ∃ symbol, target.symbol? = some symbol ∧ t.names.resolve? symbol = some v ∧
        ∀ more u, Runs t more u → u.names.current = s.names.current →
          u.names.resolve? symbol = some v) ∧
    (∀ ns, s.names.namesIn? ns =
      if ns ∈ (Ledger.of ops).spaces then some ((Ledger.of ops).namesIn ns) else none) ∧
    ∀ ns, ((Op.enter ns).after s).store = s.store ∧ ((Op.enter ns).after s).names.current = ns ∧
      ∀ ns' name, ((Op.enter ns).after s).names.find? ns' name = s.names.find? ns' name := by
  have hL : (Ledger.of ops).Shows store.vars.size s := h.shows (Ledger.Shows.bare store config)
  refine ⟨?_, ?_, fun ns name => hL.find?_isSome, hL.lookup?,
    fun ns name hs hns hname => resolve?_qualified hs hns hname, ?_, hL.namesIn?, ?_⟩
  · intro ns name
    obtain ⟨v, t, ht, -, hv⟩ := hL.intern ParseError ns name
    exact ⟨v, t, ht, hv⟩
  · intro ns name v hv
    exact ⟨Act.internIn_of_find? hv, hL.content hv, fun ns' name' w hw he => hL.inj hv hw he,
      fun more t ht => hL.keeps hv ht⟩
  · intro target v t ht
    obtain ⟨symbol, name, hs, ho, hc, hv, hshow⟩ := hL.defined ht
    refine ⟨symbol, hs, resolve?_own (hc ▸ ho) (hc.symm ▸ hv), fun more u hu hcu => ?_⟩
    exact resolve?_own (hcu ▸ ho) (hcu.symm ▸ hshow.keeps hv hu)
  · intro ns
    exact ⟨rfl, rfl, fun ns' name => find?_enter⟩

/-- A Var of the core is hidden by a definition, in the namespace of that alone; a name may have slashes. -/
theorem plus_is_hidden : ∃ s, Runs (State.bare .empty .standard)
      [.internIn "core" "+", .assign ⟨0, "core", "+"⟩ (.int 1), .define (.symbol "user/+" default) none,
        .define (.symbol "user/a/b" default) (some (.int 2)), .mark ⟨2, "user", "a/b"⟩ true,
        .enter "other"] s ∧
    s.names.lookup? "+" = some ⟨0, "core", "+"⟩ ∧
    s.names.resolve? "user/a/b" = some ⟨2, "user", "a/b"⟩ ∧
    s.store.vars[2]? = some ⟨some (.int 2), true⟩ ∧
    s.names.namesIn? "user" = some ["+", "a/b"] ∧
    ∀ more t, Runs s more t → t.names.find? "user" "+" = some ⟨1, "user", "+"⟩ := by
  have hrun : Runs (State.bare .empty .standard)
      [.internIn "core" "+", .assign ⟨0, "core", "+"⟩ (.int 1), .define (.symbol "user/+" default) none,
        .define (.symbol "user/a/b" default) (some (.int 2)), .mark ⟨2, "user", "a/b"⟩ true,
        .enter "other"] _ :=
    .next trivial (.next rfl (.next trivial (.next trivial (.next rfl (.next trivial .done)))))
  obtain ⟨-, hpair, -, hlookup, hqualified, -, hnames, -⟩ := vars_keep_identity .empty .standard hrun
  refine ⟨_, hrun, ?_, ?_, ?_, ?_, ?_⟩
  · exact (hlookup "+").trans (by decide)
  · exact (hqualified "user" "a/b" (by decide) (by decide) (by decide)).trans (by decide)
  · exact (hpair "user" "a/b" ⟨2, "user", "a/b"⟩ (by decide)).2.1
  · exact (hnames "user").trans (by decide)
  · exact (hpair "user" "+" ⟨1, "user", "+"⟩ (by decide)).2.2.2

/-! ## New interpreters -/

/-- To define natives with new names is to intern the names and to assign their Vars. -/
theorem runs_define (owner : Nat) {natives : List Native} (hn : (natives.map Native.text).Nodup)
    (hc : (s.names.space? coreNamespace).isSome)
    (hnew : ∀ op ∈ natives, s.names.find? coreNamespace op.text = none) :
    ∃ ops, Runs s ops (State.define owner s natives) := by
  induction natives generalizing s with
  | nil => exact ⟨[], .done⟩
  | cons op rest ih =>
    obtain ⟨hfirst, hrest⟩ := List.nodup_cons.mp hn
    obtain ⟨hop, hothers⟩ := List.forall_mem_cons.mp hnew
    let v : Var := ⟨s.store.vars.size, coreNamespace, op.text⟩
    let made : State := { s with store := (s.store.newVar v.ns v.name).2, names := s.names.add v }
    let bound : State := { made with store := made.store.setVar v (.native owner op) }
    have hfind : ∀ ns name, (s.names.add v).find? ns name =
        if v.ns = ns ∧ v.name = name then some v else s.names.find? ns name :=
      fun _ _ => find?_add hc
    have hmade : (Op.internIn coreNamespace op.text).after s = made := by
      rw [Op.after, Op.act, Ledger.Shows.discard_apply (Act.internIn_of_new hop), ensure_of_space? hc]
    have hlegal : (Op.assign v (.native owner op)).Legal made := by
      show (s.names.add v).find? v.ns v.name = some v
      rw [hfind, if_pos ⟨rfl, rfl⟩]
    obtain ⟨ops, hops⟩ := ih (s := bound) hrest (by
      show ((s.names.add v).space? coreNamespace).isSome
      rw [space?_add, Option.isSome_map]
      exact hc) (by
      intro other hm
      have hne : op.text ≠ other.text := fun e => hfirst (e ▸ List.mem_map_of_mem hm)
      show (s.names.add v).find? coreNamespace other.text = none
      rw [hfind, if_neg fun h => hne h.2]
      exact hothers other hm)
    have hassign : Runs made (.assign v (.native owner op) :: ops) (State.define owner bound rest) :=
      .next hlegal hops
    refine ⟨.internIn coreNamespace op.text :: .assign v (.native owner op) :: ops, .next trivial ?_⟩
    rw [hmade]
    exact hassign

theorem runs_fresh (store : Store) (config : Config) :
    ∃ ops, Runs (State.bare { store with owners := store.owners + 1 } config) ops
      (State.fresh store config) := by
  refine runs_define store.owners ?_ rfl fun op _ => rfl
  decide

end TwinLisp.Names
