import TwinLisp.Proofs.Parity.Code

/-! Calls by compiled code, of compiled functions and from outside of the machine, and the engines of
both.

* `body_comes`: the body of a function.
* `callsInCode_succ`: what a call in compiled code comes to, which may be one of a function on the same
  machine.
* `compiled_match`: the call of a compiled function from outside.
* `engines`: what engines of the second do beside those of the first. -/

namespace TwinLisp

namespace Parity

open Machine Machine.Ideal Eval

variable {text : String} {n : Nat} {good : Var → Bool} {d entry : Nat}
  {w w' : Ties} {P Q : Posture} {outer : List Scene} {i : Option Nat} {sc : Scopes} {ks : Owned} {τ : Shape}
  {k m : Nat} {cs ds : List Nat} {vs us xs : List Value} {s t u t' : State}

/-! ## Bodies of functions -/

theorem inside_captures {cells : Array Nat} (hc : w.Captures i sc ks outer Q.proto.captures cells)
    (hq : Q.captured = cells.toList) : Inside w Q outer i ([] :: sc) ks [] [] where
  near _ hv := by cases hv
  far hb _ _ _ hk hn := by
    obtain ⟨c, hc', hf⟩ := hc hb hk hn
    refine ⟨c, ?_, hf⟩
    rw [hq, Array.getElem?_toList]
    exact hc'
  slots _ hv := absurd hv List.not_mem_nil
  held _ hc := absurd hc List.not_mem_nil

/-- The variables of a function at the beginning of a round. -/
theorem enter_links {self : String} {x y : Value} {c : Nat} {v : LocalVar} {params : List String}
    (hb : Bonds w s t) (hin : Inside w Q outer i ([] :: sc) ks [] []) (hpin : (c, y) ∈ w.pins)
    (hx : w.Sends x y) (hv : v.name = self) (hslot : v.slot = 0) (hd : Declares params ⟨1, [v]⟩ τ)
    (hfree : ∀ e ∈ ds, w.Free e) (hnodup : ds.Nodup) (hn : xs.length = params.length)
    (hshown : ds.map t.store.content? = us.map some) (hxs : w.SendsAll xs us) :
    ∃ w' i' s', (Locals.named .framed).scope i (self :: params) (x :: xs) s = .ok i' s' ∧ w.Le w' ∧
      Bonds w' s' t ∧ s'.depth = s.depth ∧
      Inside w' Q outer i' (sc.enterCall self params) (Owned.locals params ((self, true) :: ks)) τ.locals
        (c :: ds) ∧ (c :: ds).length = τ.height := by
  subst hv
  have hc := hb.pinned hpin
  have hkey : ∀ l ∈ w.links, l.place.key = (Place.self c).key →
      ∃ e, l.place = .self e ∧ Place.self c = .self e := by
    intro l hl e
    have hne := hc.2 l hl
    obtain ⟨name, above, place⟩ := l
    cases place with
    | scope => cases e
    | cell => cases e; exact absurd rfl hne
    | self => cases e; exact ⟨c, rfl, rfl⟩
  have hlink := hb.link v.name i (.refl t) (p := .self c) hc.1 hx hkey fun _ _ => nofun
  have hle := w.le_link ⟨v.name, i, .self c⟩
  have hfree' : ∀ e ∈ ds, (w.link ⟨v.name, i, .self c⟩).Free e := fun e he => by
    refine ⟨fun l hl hk => ?_, (hfree e he).2⟩
    rcases List.mem_append.mp hl with hl | hl
    · exact (hfree e he).1 l hl hk
    · rw [List.mem_singleton.mp hl] at hk
      exact (hfree e he).2 _ hpin (congrArg Prod.snd hk)
  have hbind := hin.bind (v := v) (c := c) (p := .self c) (b := true) hslot (.inr ⟨rfl, rfl⟩)
  obtain ⟨w', i', s', hrun, hw', hb', hd', hin', hlen⟩ := cells_link hd hlink hbind rfl hfree' hnodup hn
    hshown (hxs.mono hle)
  refine ⟨w', i', s', ?_, hle.trans hw', hb', hd', ?_, by simpa using hlen⟩
  · rw [scope_named (by simp [hn]), List.zip_cons_cons]
    show (Locals.cell i v.name x >>= fun j => Locals.cells j (params.zip xs)) s = _
    rw [Act.bind_of_ok (show Locals.cell i v.name x s = .ok (some w.links.length) _ by
      rw [← hb.frames]; rfl)]
    exact hrun
  · rw [Scopes.enterCall, List.reverse_cons]
    exact hin'

/-- The body of a function, from its first instruction to its last. -/
theorem body_comes (hc : CallsInCode text n) (he : entry ≤ Q.frames.size) {f : Function}
    {params : List String} {body : List Expr} {cells : Array Nat} {x y : Value} {c : Nat}
    (hl : LaysFn Q.proto outer (f.literal.name.getD "") f.literal.arities)
    (ha : f.literal.arities = [⟨params, false, body⟩]) (hp : f.literal.Parsed .bare sc)
    (hcap : w.Captures f.frame sc ks outer Q.proto.captures cells) (hq : Q.captured = cells.toList)
    (hk : f.literal.steady good ks = true) (hline : f.literal.Lined)
    (hg : ∀ v, good v = true → w.natives v)
    (hat : Q.At 0 (c :: ds) (y :: us) t) (hfree : ∀ e ∈ c :: ds, w.Free e) (hnodup : (c :: ds).Nodup)
    (hx : w.Sends x y) (hxs : w.SendsAll xs us) (hn : xs.length = params.length)
    (hb : Bonds w s t) (hd : s.depth = d) (hd' : t.depth = d) :
    Comes text (scarce n) entry Q d
      (fun w' x t' => ∃ k cs, Q.proto.Has k .ret 0 ∧ Yields Q k cs w' x t') w
      ((do
        let scope ← (first text n).locals.scope f.frame (f.literal.name.getD "" :: params) (x :: xs)
        rounds (first text n).locals (flowBody (first text n) body) f.frame
          (f.literal.name.getD "" :: params) [x] (first text n).rounds scope) s) t := by
  rw [ha] at hl
  cases hl with
  | @mk _ _ _ _ _ v τ m har hv hslot hdecl hbody hret hsize =>
  have hself : t.store.content? c = some y := by
    have := hat.shown
    rw [List.map_cons, List.map_cons] at this
    exact (List.cons.inj this).1
  have hpin := hb.pin hself fun l hl e => (hfree c List.mem_cons_self).1 l hl (by rw [e]; rfl)
  have hle := w.le_pin c y
  have hheight := hdecl.height
  have hparsed := hp.arities params false body (by rw [ha]; exact List.mem_cons_self)
  have hsteady : allSteady good
      (Owned.locals params ((f.literal.name.getD "", true) :: ks)) body = true := by
    rw [FnLiteral.steady, ha, aritiesSteady, Bool.and_eq_true] at hk
    exact hk.1
  have hlined : AllLined body := hline ⟨params, false, body⟩ (by rw [ha]; exact List.mem_cons_self)
  -- What the beginning of a round is like, whatever has been done before.
  have hround : ∀ {w' s' t' xs us ds vs'}, (w.pin c y).Le w' → Bonds w' s' t' → s'.depth = d →
      t'.depth = d → Q.At 0 ([c] ++ ds) (vs' ++ us) t' → (∀ e ∈ ds, w'.Free e) → ds.Nodup →
      ds.length = us.length → w'.SendsAll xs us → xs.length = params.length →
      ∃ w'' k s'', (Locals.named .framed).scope f.frame (f.literal.name.getD "" :: params) ([x] ++ xs) s' =
          .ok k s'' ∧ w'.Le w'' ∧
        Stands good d w'' Q outer k (sc.enterCall (f.literal.name.getD "") params)
          (Owned.locals params ((f.literal.name.getD "", true) :: ks)) τ 0 ([c] ++ ds) (vs' ++ us)
          s'' t' := by
    intro w' s' t' xs us ds vs' hw' hb' hd hd' hat hfree hnodup hlen hxs hn
    have hll : [c].length = vs'.length := by
      have := hat.length
      simp only [List.length_append] at this ⊢
      omega
    obtain ⟨w'', k, s'', hrun, hw'', hb'', hd'', hin, hlen'⟩ := enter_links hb'
      ((inside_captures hcap hq).mono (hle.trans hw')) (hw'.pins _ List.mem_cons_self)
      (hx.mono (hle.trans hw')) hv hslot hdecl hfree hnodup hn (hat.parts hll).2 hxs
    exact ⟨w'', k, s'', hrun, hw'', hat, hlen', hin, hb'',
      fun v hv => hw''.natives v (hw'.natives v (hg v hv)), hd''.trans hd, hd'⟩
  obtain ⟨w₁, j, s₁, hrun, hw₁, hs₁⟩ := hround (.refl _) hpin hd hd'
    (show Q.At 0 ([c] ++ ds) ([y] ++ us) t from hat)
    (fun e he => (hfree e (List.mem_cons_of_mem c he)).pin
      (by rintro rfl; exact (List.nodup_cons.mp hnodup).1 he) y)
    (List.nodup_cons.mp hnodup).2 (by simpa using hat.length) (hxs.mono hle) hn
  rw [show (first text n).locals = .named .framed from Engine.locals_strict ..,
    show (first text n).rounds = n - 1 from Engine.rounds_strict .., Act.bind_of_ok (s := s)
      (a := (Locals.named .framed).scope f.frame (f.literal.name.getD "" :: params) (x :: xs)) hrun]
  have hrounds : Comes text (fun m N => scarce n m N ∧ N ≤ n - 1) entry Q d
      (fun w' x t' => ∃ ds', ([c] ++ ds').length = τ.height ∧ Yields Q m ([c] ++ ds') w' x t') w₁
      (rounds (.named .framed) (flowBody (first text n) body) f.frame (f.literal.name.getD "" :: params) [x]
        (n - 1) j s₁) t := rounds_comes
    (fun {w' k s' t' ds vs'} _ hs' => by
      refine flowBody_comes hc he body hbody hparsed hsteady hlined (fun T' hT' => ?_) hs'
      cases hT'
      show 1 ≤ τ.height
      rw [hheight]
      exact Nat.le_add_right ..)
    (fun hw' => hround (hw₁.trans hw')) (n - 1) (.refl w₁) hs₁
  have hshort : ∀ m N, scarce n m N → scarce n m N ∧ N ≤ n - 1 := fun m N hmN => ⟨hmN, by
    have := cost_pos m
    unfold scarce at hmN
    omega⟩
  refine ((hrounds.fewer hshort).imp ?_).mono (hle.trans hw₁)
  · rintro w' x t' - ⟨ds', -, hx⟩
    exact ⟨m, _, hret, hx⟩

/-! ## Calls of compiled functions -/

theorem Bonds.reckon (h : Bonds w s t) (a b : Nat) :
    Bonds w { s with depth := a } { t with depth := b } := { h with }

theorem callFunction_eq {E : Engine} {i : Nat} {f : Function} {name : String} {params : List String}
    {body : List Expr} (hf : s.store.functions[i]? = some f)
    (ha : f.literal.arities = [⟨params, false, body⟩]) :
    callFunction E i name xs s =
      if xs.length = params.length then
        if s.depth ≥ s.config.maxDepth then .error (.raised ⟨.stackOverflow, f.literal.span⟩) s
        else Act.ending (do
          let scope ← E.locals.scope f.frame (f.literal.name.getD "" :: params) (.fn i name :: xs)
          rounds E.locals (flowBody E body) f.frame (f.literal.name.getD "" :: params) [.fn i name] E.rounds
            scope) (fun s => { s with depth := s.depth - 1 }) { s with depth := s.depth + 1 }
      else .error (.raised ⟨.wrongArity name xs.length, .unknown⟩) s := by
  simp only [callFunction, Act.bind_apply, Act.askStore, hf, FnLiteral.arityFor?, ha, List.find?_cons,
    List.find?_nil, Bool.not_false, Bool.true_and]
  by_cases hn : xs.length = params.length
  · rw [if_pos hn]
    simp only [hn, beq_self_eq_true, Act.bind_apply, Run.enter]
    by_cases hd : s.depth ≥ s.config.maxDepth
    · rw [if_pos hd, if_pos hd]
    · rw [if_neg hd, if_neg hd]
      rfl
  · rw [if_neg hn]
    simp only [beq_false_of_ne (Ne.symm hn)]
    rfl

theorem Bonds.compiled (hb : Bonds w s t) {f : Value} {id : Nat} {name : String}
    (hf : w.Sends f (.closure id name)) :
    ∃ i g, f = .fn i name ∧ s.store.functions[i]? = some g ∧ Twin w t.store g name (true, id) := by
  obtain ⟨ρ, hρ, -⟩ := w.exists_plain
  have e : Value.closure id name = f.rename ρ := hf ρ hρ
  cases f with
  | closure => exact absurd hf Ties.Sends.closure
  | fn i shown =>
    obtain ⟨⟨engine, j⟩, hi, hy⟩ := hf.known
    obtain ⟨g, hg, htwin⟩ := hb.function hi
    cases engine with
    | false => cases hy
    | true =>
      cases hy
      exact ⟨i, g, rfl, hg, htwin⟩
  | _ => cases e

/-- The body of a compiled function that is called, on a machine that has just begun it. -/
theorem called_comes (hc : CallsInCode text n) (he : entry ≤ Q.frames.size) {i' : Nat} {f : Function}
    {name : String} {params : List String} {body : List Expr} {cells : Array Nat}
    (ha : f.literal.arities = [⟨params, false, body⟩]) (hready : s.ready (.fn i' name) = true)
    (hf : s.store.functions[i']? = some f)
    (hl : LaysFn Q.proto outer (f.literal.name.getD "") f.literal.arities) (hp : f.literal.Parsed .bare sc)
    (hcap : w.Captures f.frame sc ks outer Q.proto.captures cells)
    (hk : ks = [] ∨ ∃ good : Var → Bool, (∀ v, good v = true → w.natives v) ∧
      f.literal.steady good ks = true) (hline : f.literal.Lined) (hq : Q.captured = cells.toList)
    {u : State} {g : Value}
    (hat : Q.At 0 (Posture.fresh (g :: us) u) (g :: us) t) (hu : Bonds w s u)
    (hx : w.Sends (.fn i' name) g) (hxs : w.SendsAll xs us) (hn : xs.length = params.length)
    (hb : Bonds w s t) (hd : s.depth = d) (hd' : t.depth = d) :
    Comes text (scarce n) entry Q d
      (fun w' x t' => ∃ k cs, Q.proto.Has k .ret 0 ∧ Yields Q k cs w' x t') w
      ((do
        let scope ← (first text n).locals.scope f.frame (f.literal.name.getD "" :: params)
          (.fn i' name :: xs)
        rounds (first text n).locals (flowBody (first text n) body) f.frame
          (f.literal.name.getD "" :: params) [.fn i' name] (first text n).rounds scope) s) t := by
  obtain ⟨w', good, hw, hb', hu', hg, hk⟩ : ∃ w' good, w.Le w' ∧ Bonds w' s t ∧
      (∀ c, w.Free c → w'.Free c) ∧ (∀ v, good v = true → w'.natives v) ∧
        f.literal.steady good ks = true := by
    rcases hk with rfl | ⟨good, hg, hk⟩
    · refine ⟨w.trust s.store.isNative, s.store.isNative, w.le_trust _, hb.trust fun _ h => h,
        fun _ h => h, fun _ h => .inr h, ?_⟩
      simpa only [State.ready, hf] using hready
    · exact ⟨w, good, .refl w, hb, fun _ h => h, hg, hk⟩
  have hfree : ∀ e ∈ Posture.fresh (g :: us) u, w'.Free e := fun e he => hu' e (free_of_fresh hu he)
  have hnodup : (Posture.fresh (g :: us) u).Nodup := List.nodup_range' ..
  obtain ⟨c, ds, hfresh⟩ : ∃ c ds, Posture.fresh (g :: us) u = c :: ds := ⟨_, _, rfl⟩
  rw [hfresh] at hat hfree hnodup
  exact (body_comes hc he hl ha hp (hcap.mono hw) hq hk hline hg hat hfree hnodup (hx.mono hw)
    (hxs.mono hw) hn
    hb' hd hd').mono hw

theorem closure_comes (hc : CallsInCode text n) (he : entry ≤ P.frames.size) {f : Value} {id : Nat}
    {name : String} {span : Span} (hat : P.At k (cs ++ ds) (vs ++ .closure id name :: us) t)
    (hl : cs.length = vs.length) (hi : P.proto.Has k .call us.length) (hplace : P.proto.Placed k span)
    (hsp : span.known = true) (hb : Bonds w s t) (hd : s.depth = d) (hd' : t.depth = d)
    (hheld : ∀ c ∈ cs, w.Held c) (hf : w.Sends f (.closure id name)) (hx : w.SendsAll xs us) :
    Comes text (scarce (n + 1)) entry P d (Yields P (k + 2) cs) w
      (Act.within span ((first text (n + 1)).call f xs) s) t := by
  obtain ⟨i', g, rfl, hg, htwin⟩ := hb.compiled hf
  have hcall : (first text (n + 1)).call (.fn i' name) xs s =
      if s.ready (.fn i' name) then callFunction (first text n) i' name xs s
      else Act.leaving text s := rfl
  by_cases hready : s.ready (.fn i' name) = true
  swap
  · refine Comes.within (a := (first text (n + 1)).call (.fn i' name) xs) ?_ span
    rw [hcall, if_neg hready]
    exact .leaving
  rw [if_pos hready] at hcall
  cases htwin with
  | @compiled q cells outer sc ks _ hq hname hlays hsize hparsed hcap hk hline =>
  have hlays' := hlays
  generalize ha : g.literal.arities = as at hlays'
  cases hlays' with
  | @mk _ _ _ params body _ _ _ har =>
  rw [callFunction_eq hg ha] at hcall
  have hlen : us.length = xs.length := hx.length
  have hq' : t.store.closures[id]? = some ⟨q, cells.toList.toArray⟩ := by simpa using hq
  by_cases hn : xs.length = params.length
  swap
  · simp only [Act.within, Act.mapFault, hcall, if_neg hn]
    refine .fails hb hd (.of_plain (RuntimeFault.plain_wrongArity _ _) hsp w) ?_
    have := hat.call_misfit hl hi rfl hq (by rw [har, hlen]; exact hn) hplace
    rwa [hlen, show q.name = name from hname] at this
  by_cases hdeep : s.depth ≥ s.config.maxDepth
  · simp only [Act.within, Act.mapFault, hcall, if_pos hn, if_pos hdeep]
    refine .fails hb hd ⟨fun ρ _ => ?_, .inl ?_⟩ (hat.call_overflow hl hi rfl hq
      (by rw [har, hlen]; exact hn) (by rw [hb.config, hd', ← hd]; exact hdeep) hplace)
    · rw [Located.within_cause]
      rfl
    · rw [Located.within_cause]
  refine Comes.within (a := (first text (n + 1)).call (.fn i' name) xs) ?_ span
  rw [hcall, if_pos hn, if_neg hdeep]
  have hfits : cells.toList.length = q.captures.size := by simpa using hsize
  let Q := P.callee (k + 2) cs vs q cells.toList hfits
  obtain ⟨t', hstep, hat', ht, hdt⟩ := hat.call hl hi entry rfl hq'
    (by rw [har, hlen]; exact hn) hfits (by rw [hb.config, hd', ← hd]; exact Nat.lt_of_not_le hdeep)
  have hframes : Q.frames.size = P.frames.size + 1 := Array.size_push _
  have hbody := called_comes (d := d + 1) (Q := Q) (u := t) (g := .closure id name)
    (s := { s with depth := s.depth + 1 }) hc (show entry ≤ Q.frames.size by omega) ha hready hg hlays hparsed
    hcap hk hline rfl hat' (hb.reckon (s.depth + 1) t.depth) hf hx hn
    ((hb.enlarge ht).reckon (s.depth + 1) t'.depth) (by rw [hd]) (by rw [hdt, hd'])
  simp only [Act.ending]
  generalize ((do
    let scope ← (first text n).locals.scope g.frame (g.literal.name.getD "" :: params)
      (.fn i' name :: xs)
    rounds (first text n).locals (flowBody (first text n) body) g.frame
      (g.literal.name.getD "" :: params) [.fn i' name] (first text n).rounds scope : Run Value)
        { s with depth := s.depth + 1 }) = r at hbody
  have hshort : ∀ m N N', scarce (n + 1) m N → N' + 1 ≤ N → scarce n m N' := fun m N N' hmN hN => by
    unfold scarce at hmN ⊢
    omega
  cases hbody with
  | @ok w' x s' _ t₁ hw hl' hx' hb' hds hdt' =>
    obtain ⟨j, es, hret, us', c, y, hat₁, hfree, hxy⟩ := hx'
    obtain ⟨vs', hvs'⟩ := exists_contents fun c hc => hb'.content_of_held ((hheld c hc).mono hw)
    obtain ⟨t₂, ht₂⟩ := hat₁.returns entry hret he hl.symm hvs'
    have hb₂ : Bonds w' { s' with depth := s'.depth - 1 } (Posture.left true t₁) :=
      hb'.reckon (s'.depth - 1) (t₁.depth - 1)
    refine .ok hw ((hstep.leads.trans (hl'.trans ht₂.steps.leads)).weaken (Nat.zero_le _))
      (ht₂.yields hb₂ hxy)
      (hb₂.enlarge ht₂.enlarged) (by simp [hds]) ?_
    rw [ht₂.depth]
    simp [Posture.left, hdt']
  | @raised w' e e' s' _ u hw hblame hends hb' hds hu =>
    refine .raised hw hblame (hstep.leads.ends hends) (hb'.reckon (s'.depth - 1) u.depth) (by simp [hds])
      ⟨?_, ?_, hu.openCells, hu.parked⟩
    · obtain ⟨more, hmore⟩ := hu.stack
      exact ⟨vs.toArray ++ more, by rw [hmore, ← Array.append_assoc]; rfl⟩
    · obtain ⟨more, hmore⟩ := hu.frames
      refine ⟨#[P.activation (k + 2) cs] ++ more, ?_⟩
      rw [hmore, ← Array.append_assoc]
      simp [Q, Posture.callee]
  | exhausted h =>
    exact .exhausted (h.imp_right fun hs => hstep.leads.short hshort hs)

/-! ## Calls of other values -/

/-- What is where when compiled code has called something that is not compiled. -/
def aside (w : Ties) (d : Nat) (P : Posture) (k : Nat) (cs : List Nat) (vs : List Value) : World :=
  ⟨w, d, P.stack ++ vs.toArray, P.frames.push (P.activation k cs)⟩

theorem related_aside (hb : Bonds w s t) (hd : s.depth = d) (hd' : t.depth = d) :
    Related (aside w d P k cs vs) s (Posture.outside (P.put k cs vs (Posture.ticked t))) :=
  ⟨{ hb with }, hd, hd', rfl, rfl, rfl, .inr rfl⟩

theorem inside_eq {w' : World} (h : Related w' s t) (hw : (aside w d P k cs vs).Le w') :
    t.parked.isSome = true ∧ Posture.inside t = P.put k cs vs (Posture.inside t) := by
  have hframes := h.frames.trans hw.frames
  have hstack := h.stack.trans hw.stack
  have hopen := h.openCells
  have hsome : t.parked.isSome = true := by
    refine h.there.resolve_left fun e => ?_
    have hnone := hw.frames.symm.trans e
    simp [aside] at hnone
  refine ⟨hsome, ?_⟩
  obtain ⟨M, hM⟩ := Option.isSome_iff_exists.mp hsome
  rw [hM] at hframes hstack hopen
  obtain ⟨stack, frames, openCells, steps, peak⟩ := M
  simp only [Option.getD_some] at hframes hstack hopen
  subst hframes hstack hopen
  simp only [Posture.inside, hM, Posture.put, aside, Option.getD_some]

section Out

variable {call : Caller} {t u : State}

theorem callOut_ok {v : Value} (h : call g us (Posture.outside t) = .ok v u)
    (hp : u.parked.isSome = true) : callOut call g us t = .ok v (back t u) := by
  simp only [callOut, show { t with machine := .idle, parked := some t.machine } = Posture.outside t from rfl,
    h, hp, if_true]

theorem callOut_raised {e : RuntimeError} (h : call g us (Posture.outside t) = .error (.raised e) u)
    (hp : u.parked.isSome = true) : callOut call g us t = .error (.raised e) (back t u) := by
  simp only [callOut, show { t with machine := .idle, parked := some t.machine } = Posture.outside t from rfl,
    h, hp, if_true]

theorem callOut_exhausted (h : call g us (Posture.outside t) = .error .exhausted u) :
    callOut call g us t = .error .exhausted (back t u) := by
  simp only [callOut, show { t with machine := .idle, parked := some t.machine } = Posture.outside t from rfl,
    h]

end Out

theorem outside_comes (hcalls : (coupling text).Calls (fun m => cost m ≤ n) (first text n).call
      fun m => (second m).call) {f g : Value} {span : Span} (hg : ∀ id name, g ≠ .closure id name)
    (hat : P.At k (cs ++ ds) (vs ++ g :: us) t)
    (hl : cs.length = vs.length) (hi : P.proto.Has k .call us.length) (hplace : P.proto.Placed k span)
    (hsp : span.known = true) (hb : Bonds w s t) (hd : s.depth = d) (hd' : t.depth = d)
    (hheld : ∀ c ∈ cs, w.Held c) (hf : w.Sends f g) (hx : w.SendsAll xs us) :
    Comes text (scarce n) entry P d (Yields P (k + 2) cs) w
      (Act.within span ((first text n).call f xs) s) t := by
  let T := P.put (k + 2) cs vs (Posture.ticked t)
  have hmatch := hcalls (aside w d P (k + 2) cs vs) f g xs us hf hx s (Posture.outside T)
    (related_aside hb hd hd')
  have hline : P.proto.chunk.lines.getD k 0 = span.line := by
    rw [Array.getD_eq_getD_getElem?, show P.proto.chunk.lines[k]? = some span.line from hplace]
    rfl
  have hstep : ∀ L m, Ideal.step (second m).call entry (ample L t) = Act.within (.ofLine span.line)
      (do push (← callOut (second m).call g us); return none : Run (Option Value)) (ample L T) := fun L m => by
    rw [← hline]
    exact hat.callOut hl hi hg _ _ _
  have hinside : ∀ L u, back (ample L T) ((coupling text).at_ L u) = ample L (Posture.inside u) := by
    intro L u
    have hparked : (ample L T).parked = none := hat.parked
    simp only [back, hparked]
    rfl
  simp only [Act.within, Act.mapFault, Act.bind_apply] at hstep ⊢
  generalize (first text n).call f xs s = r at hmatch
  cases hmatch with
  | @ok w' x y s' t₁ _ hw hx' hs' hc =>
    obtain ⟨hsome, hinto⟩ := inside_eq hs' hw
    obtain ⟨K, hK⟩ := hc
    obtain ⟨vs', hvs'⟩ := exists_contents fun c hc => hs'.bonds.content_of_held ((hheld c hc).mono hw.ties)
    have hin : Bonds w'.ties s' (Posture.inside t₁) := { hs'.bonds with }
    let t₂ := P.put (k + 2) (cs ++ Posture.fresh [y] (Posture.inside t₁)) (vs' ++ [y])
      (Posture.allot [y] (Posture.inside t₁))
    have hat₂ : P.At (k + 2) (cs ++ Posture.fresh [y] (Posture.inside t₁)) (vs' ++ [y]) t₂ :=
      ⟨rfl, rfl, Posture.map_content?_allot (T := Posture.inside t₁) hvs' [y]⟩
    have ht : Enlarged (Posture.inside t₁) t₂ := Posture.enlarged_allot (.refl _) _ _ _ _
    refine .ok hw.ties (Leads.weaken (Leads.of_step ⟨K + (P.stack ++ vs.toArray).size + 1,
      fun L hL m => ?_⟩) (Nat.zero_le _)) ⟨vs', _, y, hat₂, hin.free (Nat.le_refl _), hx'⟩ (hin.enlarge ht)
        (hs'.depth.trans hw.depth) (hs'.depth'.trans hw.depth)
    rw [hstep L m]
    rcases (hK L (by omega)).1 m with e | ⟨-, u, e⟩
    · refine .inl ⟨P.put (k + 2) cs (vs ++ [y]) (ample L (Posture.inside t₁)), ?_,
        Posture.settle_put hl.symm hvs', (hat₂.lifted L).settled⟩
      · have hpush := @Posture.push_put P (k + 2) cs vs (ample L (Posture.inside t₁)) y
          (Posture.room (by omega) _)
        have hinto' : ample L (Posture.inside t₁) = P.put (k + 2) cs vs (ample L (Posture.inside t₁)) :=
          congrArg (ample L) hinto
        have hout : callOut (second m).call g us (ample L T) = .ok y (ample L (Posture.inside t₁)) :=
          (callOut_ok (u := (coupling text).at_ L t₁) e hsome).trans (congrArg _ (hinside L t₁))
        rw [hout]
        simp only
        rw [hinto', hpush]
        rfl
    · refine .inr ⟨?_, back (ample L T) u, by rw [callOut_exhausted e]⟩
      by_contra hm
      have := (hK L (by omega)).2 m (by omega)
      rw [e] at this
      cases this
  | @raised w' e e' s' t₁ _ hw he hs' hc =>
    obtain ⟨hsome, hinto⟩ := inside_eq hs' hw
    obtain ⟨K, hK⟩ := hc
    have hin : Bonds w'.ties s' (Posture.inside t₁) := { hs'.bonds with }
    refine .raised hw.ties (.of_fault hsp he) (.of_step (u := Posture.inside t₁) ⟨K, fun L hL m => ?_⟩) hin
      (hs'.depth.trans hw.depth) ?_
    · rw [hstep L m]
      rcases (hK L hL).1 m with e | ⟨-, u, e⟩
      · refine .inl ?_
        have hout : callOut (second m).call g us (ample L T) = .error (.raised e') (ample L (Posture.inside t₁)) :=
          (callOut_raised (u := (coupling text).at_ L t₁) e hsome).trans (congrArg _ (hinside L t₁))
        rw [hout]
      · refine .inr ⟨?_, back (ample L T) u, by rw [callOut_exhausted e]⟩
        by_contra hm
        have := (hK L hL).2 m (by omega)
        rw [e] at this
        cases this
    · rw [hinto]
      exact Posture.under_put rfl
  | exhausted hc =>
    refine .exhausted (hc.imp id fun hc m N hmN => ?_)
    cases N with
    | zero => exact ⟨0, fun L _ => stuck_zero ..⟩
    | succ N =>
      obtain ⟨K, hK⟩ := hc m (by unfold scarce at hmN; omega)
      refine ⟨K, fun L hL => ?_⟩
      obtain ⟨u, e, -⟩ := hK L hL
      refine ⟨back (ample L T) u, ?_⟩
      rw [going_succ, hstep L m, callOut_exhausted e]

/-! ## Calls at all levels -/

theorem callsInCode_zero : CallsInCode text 0 := by
  intro w s t P entry d k cs ds vs xs us f g span
  intros
  exact .exhausted (.inr fun m N hmN => absurd hmN (by have := cost_pos m; unfold scarce; omega))

theorem callsInCode_succ (hc : CallsInCode text n)
    (hcalls : (coupling text).Calls (fun m => cost m ≤ n + 1) (first text (n + 1)).call
      fun m => (second m).call) : CallsInCode text (n + 1) := by
  intro w s t P entry d k cs ds vs xs us f g span hat hl hi hplace hsp hb hd hd' hheld hf hx he
  by_cases hg : ∃ id name, g = .closure id name
  · obtain ⟨id, name, rfl⟩ := hg
    exact closure_comes hc he hat hl hi hplace hsp hb hd hd' hheld hf hx
  · exact outside_comes hcalls (fun id name e => hg ⟨id, name, e⟩) hat hl hi hplace hsp hb hd hd' hheld hf hx

variable {text : String} {n d entry : Nat} {w : World} {Q : Posture} {s t : State}

/-! ## Fuel -/

/-- What the second does with a level more than it needs. -/
theorem Match.deeper {ε α β : Type} {V : World → α → β → Prop} {X : World → ε → ε → Prop}
    {short short' : Nat → Prop} {r : EStateM.Result (Stop ε) State α}
    {c c' : Nat → Nat → EStateM.Result (Stop ε) State β} (h : (coupling text).Match short' V X w r c)
    (hc : ∀ m L, c' (m + 1) L = c m L) (h0 : ∀ L, ∃ u, c' 0 L = .error .exhausted u)
    (hs : ∀ m, short (m + 1) → short' m) : (coupling text).Match short V X w r c' := by
  have settles : ∀ {w : World} {q}, (coupling text).Settles w c q →
      (coupling text).Settles w c' q := fun {w q} ⟨K, hK⟩ => by
    refine ⟨K + 1, fun L hL => ⟨fun m => ?_, fun m hm => ?_⟩⟩
    · cases m with
      | zero => exact .inr ⟨trivial, h0 L⟩
      | succ m => simpa only [hc] using ((hK L (by omega)).1 m).imp_right fun h => ⟨trivial, h.2⟩
    · obtain ⟨m, rfl⟩ : ∃ m', m = m' + 1 := ⟨m - 1, by omega⟩
      simpa only [hc] using (hK L (by omega)).2 m (by omega)
  cases h with
  | ok hw hx hs' hc' => exact .ok hw hx hs' (settles hc')
  | raised hw he hs' hc' => exact .raised hw he hs' (settles hc')
  | exhausted hc' =>
    refine .exhausted (hc'.imp_right fun hc' m hm => ?_)
    cases m with
    | zero =>
      refine ⟨0, fun L _ => ?_⟩
      obtain ⟨u, e⟩ := h0 L
      exact ⟨u, e, trivial⟩
    | succ m => simpa only [hc] using hc' m (hs m hm)

theorem Match.fewer {ε α β : Type} {V : World → α → β → Prop} {X : World → ε → ε → Prop}
    {short short' : Nat → Prop} {r : EStateM.Result (Stop ε) State α}
    {c : Nat → Nat → EStateM.Result (Stop ε) State β} (h : (coupling text).Match short' V X w r c)
    (hs : ∀ m, short m → short' m) : (coupling text).Match short V X w r c := by
  cases h with
  | ok hw hx hs' hc => exact .ok hw hx hs' hc
  | raised hw he hs' hc => exact .raised hw he hs' hc
  | exhausted hc => exact .exhausted (hc.imp_right fun hc m hm => hc m (hs m hm))

theorem le_cost (m : Nat) : m ≤ cost m := by
  induction m with
  | zero => exact Nat.zero_le _
  | succ m ih =>
    rw [cost]
    have := cost_pos m
    omega

/-! ## Runs that begin with a call -/

/-- A run goes on alike before the slots have got their cells. -/
theorem run_unsettled {m L : Nat} {u t' : State} (hu : settle u = ample L t')
    (hs : settle (ample L t') = ample L t') (N : Nat) :
    Machine.run (second m).cycle entry (N + 1) u = going entry m (N + 1) L t' := by
  have hcycle : (second m).cycle entry u = (second m).cycle entry (ample L t') := by
    rw [second, Engine.cycle_built]
    simp only [Ideal.step, Act.bind_apply, Act.update, hu, hs]
  simp only [going, Machine.run, Act.bind_apply, hcycle]

namespace Posture

variable {T : State} {vs xs : List Value} {v : Value}

/-- The state with values on what lies below a function. -/
def loaded (Q : Posture) (vs : List Value) (T : State) : State :=
  { T with machine := ⟨Q.stack ++ vs.toArray, Q.frames, [], T.machine.steps, T.machine.peak⟩ }

/-- A run that is the first on the machine counts its instructions from the beginning. -/
def restarted (Q : Posture) (T : State) : State :=
  if Q.frames.size = 0 then { T with machine := { T.machine with steps := 0, peak := 0 } } else T

theorem restarted_ample (L : Nat) (T : State) :
    Q.restarted (Parity.ample L T) = Parity.ample L (Q.restarted T) := by
  unfold restarted
  split <;> rfl

theorem restarted_rest (T : State) : Q.restarted T = { T with machine := (Q.restarted T).machine } := by
  unfold restarted
  split <;> rfl

def begun (Q : Posture) (T : State) : State :=
  { T with
    depth := if Q.counted then T.depth + 1 else T.depth
    machine := { T.machine with peak := max T.machine.peak (Q.frames.size + 1) } }

theorem push_loaded (h : Q.stack.size + vs.length < T.config.limits.stackMax) :
    push v (Q.loaded vs T) = .ok () (Q.loaded (vs ++ [v]) T) := by
  have hsize : ¬ (Q.loaded vs T).machine.stack.size ≥ (Q.loaded vs T).config.limits.stackMax := by
    simpa [loaded] using h
  rw [push, if_neg hsize]
  simp [loaded, State.mapMachine, mapStack]

theorem forM_push_loaded (h : Q.stack.size + vs.length + xs.length ≤ T.config.limits.stackMax) :
    xs.forM push (Q.loaded vs T) = .ok () (Q.loaded (vs ++ xs) T) := by
  induction xs generalizing vs with
  | nil => rw [List.append_nil]; rfl
  | cons x xs ih =>
    rw [List.length_cons] at h
    have hrest := @ih (vs ++ [x]) (by simp; omega)
    rw [List.append_assoc, List.singleton_append] at hrest
    rw [← hrest]
    exact Act.bind_of_ok (push_loaded (by omega)) fun _ => xs.forM push

theorem begin_loaded (id : Nat)
    (hstack : Q.stack.size + xs.length + 1 ≤ T.config.limits.stackMax)
    (hframes : Q.frames.size < T.config.limits.framesMax)
    (hd : Q.counted = true → T.depth < T.config.maxDepth) :
    begin id ⟨Q.proto, Q.captured.toArray⟩ xs Q.stack.size Q.counted (Q.loaded [] T) =
      .ok () (Q.put 0 [] (.closure id Q.proto.name :: xs) (Q.begun T)) := by
  have hpush := @push_loaded Q T [] (.closure id Q.proto.name)
    (by simp only [List.length_nil]; omega)
  have hpushes := @forM_push_loaded Q T [.closure id Q.proto.name] xs
    (by simp only [List.length_singleton]; omega)
  simp only [begin, Act.bind_apply, hpush, List.nil_append, hpushes]
  have hroom : ¬ Q.frames.size ≥ T.config.limits.framesMax := Nat.not_le.mpr hframes
  cases hc : Q.counted with
  | true =>
    have hd := hd hc
    have := @pushFrame_eq (Q.loaded (.closure id Q.proto.name :: xs) T)
      ⟨Q.proto, Q.captured.toArray⟩ Q.stack.size hd hframes
    rw [List.singleton_append, this]
    simp only [put, loaded, begun, activation, hc, if_true, List.append_nil]
  | false =>
    simp only [pushFrame, Bool.false_eq_true, if_false, Act.bind_apply, Act.ask, List.singleton_append]
    rw [if_neg (show ¬ (Q.loaded (.closure id Q.proto.name :: xs) T).machine.frames.size ≥
      (Q.loaded (.closure id Q.proto.name :: xs) T).config.limits.framesMax from hroom)]
    simp only [Act.update, State.mapMachine, put, loaded, begun, activation, hc,
      Bool.false_eq_true, if_false, List.append_nil]

theorem begin_overflow (id : Nat) {c : Closure}
    (hstack : Q.stack.size + xs.length + 1 ≤ T.config.limits.stackMax)
    (hd : T.config.maxDepth ≤ T.depth) :
    begin id c xs Q.stack.size true (Q.loaded [] T) =
      .error (.raised RuntimeFault.stackOverflow.bare) (Q.loaded (.closure id c.proto.name :: xs) T) := by
  have hpush := @push_loaded Q T [] (.closure id c.proto.name)
    (by simp only [List.length_nil]; omega)
  have hpushes := @forM_push_loaded Q T [.closure id c.proto.name] xs
    (by simp only [List.length_singleton]; omega)
  have henter : Run.enter .unknown (Q.loaded (.closure id c.proto.name :: xs) T) =
      .error (.raised RuntimeFault.stackOverflow.bare) (Q.loaded (.closure id c.proto.name :: xs) T) :=
        if_pos hd
  simp only [begin, Act.bind_apply, hpush, List.nil_append, hpushes, pushFrame, if_true,
    List.singleton_append, henter]

/-- Whatever a run has left above what lies below a function is taken away. -/
theorem Under.unwind {u : State} (h : Q.Under u) (d : Nat) :
    Machine.unwind Q.stack.size Q.frames.size d u = { Q.gone u with depth := d } := by
  obtain ⟨more, hstack⟩ := h.stack
  obtain ⟨more', hframes⟩ := h.frames
  have hs : u.machine.stack.shrink Q.stack.size = Q.stack := by
    rw [hstack, Array.shrink_eq_take]
    simp
  have hf : u.machine.frames.shrink Q.frames.size = Q.frames := by
    rw [hframes, Array.shrink_eq_take]
    simp
  simp only [Machine.unwind, closeFrom_of_nil h.openCells, State.mapMachine, hs, hf, gone, h.openCells]

theorem start_misfit {cycle : Nat → Run (Option Value)} {N id : Nat} {c : Closure} {counted : Bool}
    (hn : xs.length ≠ c.proto.arity) :
    start cycle N id c xs counted T = .error (.raised ⟨.wrongArity c.proto.name xs.length, .unknown⟩) T := by
  unfold start
  rw [if_pos hn]
  rfl

theorem start_loaded (cycle : Nat → Run (Option Value)) (N id : Nat) {c : Closure}
    (hn : xs.length = c.proto.arity) (counted : Bool) :
    start cycle N id c xs counted (Q.loaded [] T) =
      Act.onStop (do
        begin id c xs Q.stack.size counted
        run cycle Q.frames.size N) (Machine.unwind Q.stack.size Q.frames.size T.depth)
          (Q.loaded [] (Q.restarted T)) := by
  have hstack : (Q.loaded [] T).machine.stack.size = Q.stack.size := by simp [loaded]
  have hframes : (Q.loaded [] T).machine.frames.size = Q.frames.size := rfl
  simp only [start, hn, ne_eq, not_true_eq_false, if_false, Act.bind_apply, Act.ask, hstack, hframes,
    restarted]
  by_cases h0 : Q.frames.size = 0
  · simp only [h0, if_true]
    rfl
  · simp only [h0, if_false]
    rfl

end Posture

/-- What has happened when a call has ended in any way. -/
def ended {α : Type} (counted : Bool) :
    EStateM.Result (Stop RuntimeError) State α → EStateM.Result (Stop RuntimeError) State α
  | .ok x s => .ok x (Posture.left counted s)
  | .error e s => .error e (Posture.left counted s)

theorem ending_eq {α : Type} (a : Run α) (s : State) :
    Act.ending a (fun s => { s with depth := s.depth - 1 }) s = ended true (a s) := by
  unfold Act.ending ended
  cases a s <;> rfl

section Started

variable (hst : Related w s t) (hstack : Q.stack = w.stack) (hframes : Q.frames = w.frames)

include hst hstack hframes

theorem inside_loaded : Posture.inside t = Q.loaded [] (Posture.inside t) := by
  have hs := hst.stack.trans hstack.symm
  have hf := hst.frames.trans hframes.symm
  have ho := hst.openCells
  have hM : t.parked.getD .idle = ⟨Q.stack ++ ([] : List Value).toArray, Q.frames, [],
      (t.parked.getD .idle).steps, (t.parked.getD .idle).peak⟩ := by
    generalize t.parked.getD .idle = M at hs hf ho ⊢
    obtain ⟨stack, frames, openCells, steps, peak⟩ := M
    cases hs
    cases hf
    cases ho
    simp
  simp only [Posture.inside, Posture.loaded]
  conv_lhs => rw [hM]

omit hst in
theorem Related.parkedAgain {w' : Ties} {s' u : State} {M : Machine} (hb : Bonds w' s' u)
    (hd : s'.depth = w.depth) (hd' : u.depth = w.depth) (hu : u.machine = (Q.gone u).machine) :
    Related (w.tied w') s' { u with machine := M, parked := some u.machine } where
  bonds := { hb with }
  depth := hd
  depth' := hd'
  stack := (congrArg Machine.stack hu).trans hstack
  frames := (congrArg Machine.frames hu).trans hframes
  openCells := congrArg Machine.openCells hu
  there := .inr rfl

end Started

/-- The machine is parked after a run, which is undone without a value. -/
def parkAfter (M : Machine) (undo : State → State) :
    EStateM.Result (Stop RuntimeError) State Value → EStateM.Result (Stop RuntimeError) State Value
  | .ok x u => .ok x { u with machine := M, parked := some u.machine }
  | .error e u => .error e { undo u with machine := M, parked := some (undo u).machine }

theorem depth_left {a : Nat} (counted : Bool) (h : s.depth = if counted then a + 1 else a) :
    (Posture.left counted s).depth = a := by
  cases counted with
  | false => exact h
  | true =>
    show s.depth - 1 = a
    rw [h]
    rfl

theorem Bonds.left {ties : Ties} (hb : Bonds ties s t) (a b : Bool) :
    Bonds ties (Posture.left a s) (Posture.left b t) := by
  cases a <;> cases b <;> exact { hb with }

section Begun

variable (Q t)

def ready (g : Value) (ys : List Value) : State :=
  let T := Q.begun (Q.restarted (Posture.inside t))
  Q.put 0 (Posture.fresh (g :: ys) T) (g :: ys) (Posture.allot (g :: ys) T)

theorem ready_at (g : Value) (ys : List Value) :
    Q.At 0 (Posture.fresh (g :: ys) (Q.begun (Q.restarted (Posture.inside t)))) (g :: ys)
      (ready Q t g ys) where
  machine := rfl
  parked := by
    show (Q.restarted (Posture.inside t)).parked = none
    rw [Posture.restarted_rest]
    rfl
  shown := by
    have := @Posture.map_content?_allot [] [] (Q.begun (Q.restarted (Posture.inside t)))
      rfl (g :: ys)
    rwa [List.nil_append, List.nil_append] at this

theorem enlarged_begun : Enlarged t (Q.begun (Q.restarted (Posture.inside t))) := by
  rw [Posture.restarted_rest]
  exact ⟨⟨fun h => h, fun h => h, fun h => h, fun h => h⟩, rfl, rfl, rfl, rfl, rfl, rfl⟩

theorem enlarged_ready (g : Value) (ys : List Value) : Enlarged t (ready Q t g ys) :=
  Posture.enlarged_allot (enlarged_begun Q t) _ _ _ _

theorem depth_ready (g : Value) (ys : List Value) :
    (ready Q t g ys).depth = if Q.counted then t.depth + 1 else t.depth := by
  show (if Q.counted then (Q.restarted (Posture.inside t)).depth + 1
    else (Q.restarted (Posture.inside t)).depth) = _
  rw [Posture.restarted_rest]
  rfl

end Begun

theorem onParked_congr {r r' : Run Value} (h : r (Posture.inside t) = r' (Posture.inside t)) :
    onParked r t = onParked r' t := by
  unfold onParked
  rw [show ({ t with machine := t.parked.getD .idle, parked := none } : State) = Posture.inside t from rfl, h]

section Started

variable {id : Nat} {ys : List Value} (hst : Related w s t) (hstack : Q.stack = w.stack)
  (hframes : Q.frames = w.frames) (hn : ys.length = Q.proto.arity)
  (hroom : Q.counted = true → t.depth < t.config.maxDepth)

include hst hstack hframes hn hroom

variable (text id)

omit hroom in
theorem started_on (cycle : Nat → Run (Option Value)) (N L : Nat) :
    onParked (start cycle N id ⟨Q.proto, Q.captured.toArray⟩ ys Q.counted) ((coupling text).at_ L t) =
      parkAfter t.machine (Machine.unwind Q.stack.size Q.frames.size t.depth) ((do
        begin id ⟨Q.proto, Q.captured.toArray⟩ ys Q.stack.size Q.counted
        run cycle Q.frames.size N) (Q.loaded [] (ample L (Q.restarted (Posture.inside t))))) := by
  let T := Posture.inside t
  have hin : ample L T = Q.loaded [] (ample L T) := congrArg (ample L) (inside_loaded hst hstack hframes)
  have hstart := Posture.start_loaded (Q := Q) cycle N id
    (c := ⟨Q.proto, Q.captured.toArray⟩) (T := ample L T) hn Q.counted
  rw [Posture.restarted_ample, ← hin] at hstart
  unfold onParked
  rw [show ({ (coupling text).at_ L t with
    machine := ((coupling text).at_ L t).parked.getD .idle, parked := none } : State) = ample L T from rfl,
    hstart]
  simp only [Act.onStop]
  cases (do
    begin id ⟨Q.proto, Q.captured.toArray⟩ ys Q.stack.size Q.counted
    run cycle Q.frames.size N : Run Value) (Q.loaded [] (ample L (Q.restarted T))) <;> rfl

theorem started_eq {m N L : Nat} (hL : Q.stack.size + ys.length + 1 ≤ L) (hL' : Q.frames.size < L) :
    onParked (start (second m).cycle N id ⟨Q.proto, Q.captured.toArray⟩ ys Q.counted)
      ((coupling text).at_ L t) =
    parkAfter t.machine (Machine.unwind Q.stack.size Q.frames.size t.depth)
      (run (second m).cycle Q.frames.size N (Q.put 0 [] (.closure id Q.proto.name :: ys)
        (ample L (Q.begun (Q.restarted (Posture.inside t)))))) := by
  have hrest := Q.restarted_rest (Posture.inside t)
  have hbegin := Posture.begin_loaded (Q := Q) (T := ample L (Q.restarted (Posture.inside t))) id
    (Nat.le_trans hL (Nat.le_add_right _ _)) (Nat.lt_of_lt_of_le hL' (Nat.le_add_right _ _))
    (fun hc => by rw [hrest]; exact hroom hc)
  rw [started_on text id hst hstack hframes hn, Act.bind_of_ok hbegin]
  rfl

omit hroom in
theorem started_overflow (hc : Q.counted = true) (hd : t.config.maxDepth ≤ t.depth) : ∃ K, ∀ L ≥ K, ∀ m,
    onParked (start (second m).cycle (second m).rounds id ⟨Q.proto, Q.captured.toArray⟩ ys Q.counted)
        ((coupling text).at_ L t) =
      .error (.raised RuntimeFault.stackOverflow.bare) ((coupling text).at_ L
        { t with parked := some (Q.gone (Q.restarted (Posture.inside t))).machine }) := by
  refine ⟨Q.stack.size + ys.length + 1, fun L hL m => ?_⟩
  have hrest := Q.restarted_rest (Posture.inside t)
  have hbegin := Posture.begin_overflow (Q := Q) (T := ample L (Q.restarted (Posture.inside t))) id
    (c := ⟨Q.proto, Q.captured.toArray⟩) (Nat.le_trans hL (Nat.le_add_right _ _)) (by rw [hrest]; exact hd)
  have hunder : Q.Under (Q.loaded (.closure id Q.proto.name :: ys)
    (ample L (Q.restarted (Posture.inside t)))) :=
    ⟨⟨_, rfl⟩, ⟨#[], (Array.append_empty).symm⟩, rfl, by rw [hrest]; rfl⟩
  rw [started_on text id hst hstack hframes hn, hc, Act.bind_apply, hbegin]
  simp only [parkAfter, hunder.unwind]
  rw [hrest]
  rfl

theorem started_going : ∃ K, ∀ L ≥ K, ∀ m N,
    onParked (start (second m).cycle (N + 1) id ⟨Q.proto, Q.captured.toArray⟩ ys Q.counted)
        ((coupling text).at_ L t) =
      parkAfter t.machine (Machine.unwind Q.stack.size Q.frames.size t.depth)
        (going Q.frames.size m (N + 1) L (ready Q t (.closure id Q.proto.name) ys)) := by
  refine ⟨Q.stack.size + ys.length + Q.frames.size + 1, fun L hL m N => ?_⟩
  rw [started_eq text id hst hstack hframes hn hroom (by omega) (by omega)]
  have hsettle := @Posture.settle_put Q 0 [] [] [] (.closure id Q.proto.name :: ys)
    (ample L (Q.begun (Q.restarted (Posture.inside t)))) rfl rfl
  exact congrArg _ (run_unsettled hsettle (((ready_at Q t _ ys).lifted L).settled) N)

theorem started_zero : ∃ K, ∀ L ≥ K, ∀ m, ∃ u,
    onParked (start (second m).cycle 0 id ⟨Q.proto, Q.captured.toArray⟩ ys Q.counted)
      ((coupling text).at_ L t) = .error .exhausted u :=
  ⟨Q.stack.size + ys.length + Q.frames.size + 1, fun L hL m =>
    ⟨_, started_eq text id hst hstack hframes hn hroom (by omega) (by omega)⟩⟩

theorem started_settles {r q : Nat → EStateM.Result (Stop RuntimeError) State Value} {w' : World}
    (hr : Ends Q.frames.size (ready Q t (.closure id Q.proto.name) ys) r)
    (hq : ∀ L, parkAfter t.machine (Machine.unwind Q.stack.size Q.frames.size t.depth) (r L) = q L) :
    (coupling text).Settles w' (fun m L => onParked (start (second m).cycle (second m).rounds id
      ⟨Q.proto, Q.captured.toArray⟩ ys Q.counted) ((coupling text).at_ L t)) q := by
  obtain ⟨K, hK⟩ := hr
  obtain ⟨K₁, hgoing⟩ := started_going text id hst hstack hframes hn hroom
  obtain ⟨K₂, hzero⟩ := started_zero text id hst hstack hframes hn hroom
  have hrounds : ∀ m, (second m).rounds = m - 1 := fun m => Engine.rounds_built ..
  refine ⟨K + K₁ + K₂ + 2, fun L hL => ⟨fun m => ?_, fun m hm => ?_⟩⟩
  · simp only [hrounds]
    cases m - 1 with
    | zero => exact .inr ⟨trivial, hzero L (by omega) m⟩
    | succ N =>
      simp only [hgoing L (by omega)]
      rcases hK L (by omega) m (N + 1) with e | ⟨-, u, e⟩
      · exact .inl (by rw [e, hq])
      · exact .inr ⟨trivial, _, by rw [e]; rfl⟩
  · obtain ⟨N, hN⟩ : ∃ N, m - 1 = N + 1 := ⟨m - 2, by omega⟩
    simp only [hrounds, hN, hgoing L (by omega)]
    rcases hK L (by omega) m (N + 1) with e | ⟨hlt, -⟩
    · rw [e, hq]
    · omega

/-- A call of compiled code from outside of the machine. -/
theorem started_match {r : EStateM.Result (Stop RuntimeError) State Value}
    (h : Comes text (scarce n) Q.frames.size Q (if Q.counted then w.depth + 1 else w.depth)
      (fun w' x t' => ∃ k cs, Q.proto.Has k .ret 0 ∧ Yields Q k cs w' x t') w.ties r
        (ready Q t (.closure id Q.proto.name) ys)) :
    (coupling text).Match (fun m => cost m + m ≤ n) (coupling text).value
      (coupling text).fault w (ended Q.counted r) fun m L =>
        onParked (start (second m).cycle (second m).rounds id ⟨Q.proto, Q.captured.toArray⟩ ys Q.counted)
          ((coupling text).at_ L t) := by
  cases h with
  | @ok w' x s' _ t₁ hw hl hx hb hds hdt =>
    obtain ⟨j, es, hret, vs, c, y, hat, -, hxy⟩ := hx
    have hends := hl.ends (hat.finishes hret (Nat.le_refl _)).ends
    let u := Q.gone (Posture.left Q.counted (Posture.ticked t₁))
    have hticked : Bonds w' s' (Posture.ticked t₁) := { hb with }
    have hbonds : Bonds w' (Posture.left Q.counted s') u :=
      { hticked.left Q.counted Q.counted with }
    exact .ok (World.le_tied hw) hxy
      (Related.parkedAgain hstack hframes hbonds (depth_left _ hds) (depth_left _ hdt) rfl)
      (started_settles text id hst hstack hframes hn hroom hends fun L => rfl)
  | @raised w' e e' s' _ u hw he hends hb hds hu =>
    have hbonds : Bonds w' (Posture.left Q.counted s') { Q.gone u with depth := t.depth } :=
      { hb.left Q.counted false with }
    refine .raised (World.le_tied hw) (Blames.fault (w := w.tied w') he)
      (Related.parkedAgain (M := t.machine) hstack hframes hbonds (depth_left _ hds) hst.depth' rfl)
      (started_settles text id hst hstack hframes hn hroom hends fun L => ?_)
    have hunder : Q.Under (ample L u) := ⟨hu.stack, hu.frames, hu.openCells, hu.parked⟩
    simp only [parkAfter, hunder.unwind]
    rfl
  | @exhausted s' _ h =>
    have hout : (Posture.left Q.counted s').output = s'.output := by
      cases Q.counted <;> rfl
    refine .exhausted (h.imp (fun e => hout.trans e) fun hshort m hm => ?_)
    have hrounds : (second m).rounds = m - 1 := Engine.rounds_built ..
    simp only [hrounds]
    cases hN : m - 1 with
    | zero =>
      obtain ⟨K, hK⟩ := started_zero text id hst hstack hframes hn hroom
      refine ⟨K, fun L hL => ?_⟩
      obtain ⟨u, e⟩ := hK L hL m
      exact ⟨u, e, trivial⟩
    | succ N =>
      obtain ⟨K, hK⟩ := started_going text id hst hstack hframes hn hroom
      obtain ⟨K', hK'⟩ := hshort m (N + 1) (by unfold scarce; omega)
      refine ⟨max K K', fun L hL => ?_⟩
      obtain ⟨u, e⟩ := hK' L (by omega)
      exact ⟨_, by rw [hK L (by omega), e]; rfl, trivial⟩

end Started

/-! ## Calls of functions -/

variable {xs ys : List Value}

theorem compiled_match (hc : CallsInCode text n) (hst : Related w s t) {i id : Nat}
    {name : String} {f : Function} (hready : s.ready (.fn i name) = true)
    (hf : s.store.functions[i]? = some f) (htwin : Twin w.ties t.store f name (true, id))
    (hv : w.ties.Sends (.fn i name) (.closure id name)) (hx : w.ties.SendsAll xs ys) :
    (coupling text).Match (fun m => cost m + m ≤ n) (coupling text).value
      (coupling text).fault w (callFunction (first text n) i name xs s) fun m L =>
        (Value.closure id name).apply (second m) ys ((coupling text).at_ L t) := by
  cases htwin with
  | @compiled q cells outer sc ks _ hq hname hlays hsize hparsed hcap hk hline =>
  have hlays' := hlays
  generalize ha : f.literal.arities = as at hlays'
  cases hlays' with
  | @mk _ _ _ params body _ _ _ har =>
  have hlen : ys.length = xs.length := hx.length
  rw [callFunction_eq hf ha]
  have happly : ∀ m L, (Value.closure id name).apply (second m) ys ((coupling text).at_ L t) =
      onParked (start (second m).cycle (second m).rounds id ⟨q, cells⟩ ys true)
        ((coupling text).at_ L t) := fun m L => by
    have hclosure : closureOf id (Posture.inside ((coupling text).at_ L t)) =
        .ok ⟨q, cells⟩ (Posture.inside ((coupling text).at_ L t)) :=
      Posture.closureOf_eq (show ((coupling text).at_ L t).store.closures[id]? = _ from hq)
    refine onParked_congr ?_
    simp only [executeBy, Act.bind_apply, hclosure]
  have hfits : cells.toList.length = q.captures.size := by simpa using hsize
  let Q : Posture := ⟨w.stack, w.frames, q, cells.toList, hfits, true⟩
  have hb := hst.bonds
  simp only [happly]
  by_cases hn : xs.length = params.length
  swap
  · have hmisfit : ∀ m L, onParked (start (second m).cycle (second m).rounds id ⟨q, cells⟩ ys true)
        ((coupling text).at_ L t) = .error (.raised ⟨.wrongArity name xs.length, .unknown⟩)
          ((coupling text).at_ L { t with parked := some (Posture.inside t).machine }) := fun m L => by
      have hne : ys.length ≠ q.arity := by rw [hlen, har]; exact hn
      unfold onParked
      rw [Posture.start_misfit (c := ⟨q, cells⟩) hne, hlen, show q.name = name from hname]
      rfl
    rw [if_neg hn]
    refine .raised (World.Le.refl w) (Coupling.fault.plain (C := coupling text) w
      (RuntimeFault.plain_wrongArity _ _) _) ?_ (.of_eq hmisfit)
    exact { hst with
      bonds := { hb with }
      stack := hst.stack
      frames := hst.frames
      openCells := hst.openCells
      there := .inr rfl }
  by_cases hdeep : s.depth ≥ s.config.maxDepth
  · obtain ⟨K, hK⟩ := started_overflow text id (Q := Q) hst rfl rfl (by rw [hlen, hn]; exact har.symm) rfl
      (by rw [hb.config, hst.depth', ← hst.depth]; exact hdeep)
    rw [if_pos hn, if_pos hdeep]
    have hfault : (coupling text).fault w ⟨.stackOverflow, f.literal.span⟩ RuntimeFault.stackOverflow.bare :=
      ⟨trivial, fun ρ _ => rfl, .inl rfl⟩
    refine .raised (World.Le.refl w) hfault ?_ ⟨K, fun L hL =>
      ⟨fun m => .inl (hK L hL m), fun m _ => hK L hL m⟩⟩
    exact { hst with
      bonds := { hb with }
      stack := rfl
      frames := rfl
      openCells := rfl
      there := .inr rfl }
  rw [if_pos hn, if_neg hdeep]
  have hroom : Q.counted = true → t.depth < t.config.maxDepth := fun _ => by
    rw [hb.config, hst.depth', ← hst.depth]
    exact Nat.lt_of_not_le hdeep
  have hcomes := called_comes (d := w.depth + 1) (Q := Q)
    (s := { s with depth := s.depth + 1 }) (t := ready Q t (.closure id q.name) ys)
    (u := Q.begun (Q.restarted (Posture.inside t))) (g := .closure id q.name) hc (Nat.le_refl _) ha hready hf
    hlays hparsed hcap hk hline rfl (ready_at Q t _ ys) ((hb.enlarge (enlarged_begun Q t)).reckon _ _)
    (by rw [hname]; exact hv) hx hn ((hb.enlarge (enlarged_ready Q t _ ys)).reckon _ _) (by rw [hst.depth])
    (by rw [depth_ready, hst.depth']; rfl)
  rw [ending_eq]
  exact started_match text id hst rfl rfl (by rw [hlen, hn]; exact har.symm) hroom hcomes

/-! ## Engines -/

theorem movable_cases {f : Value} (h : f.movable = true) :
    (∃ i name, f = .fn i name) ∨ ∃ i name, f = .closure i name := by
  cases f with
  | fn i name => exact .inl ⟨i, name, rfl⟩
  | closure i name => exact .inr ⟨i, name, rfl⟩
  | _ => cases h

/-- What calls of both come to at a level above engines that correspond. -/
theorem calls_succ (hE : (coupling text).Engines (lexical text) (fun m => cost m ≤ n)
      (first text n) second) (hc : CallsInCode text n) :
    (coupling text).Calls (fun m => cost m ≤ n + 1) (first text (n + 1)).call
      fun m => (second m).call := by
  intro w f g xs ys hf hx
  refine unlessLeaving_follows (p := fun s => s.ready f) fun s t hst hready => ?_
  have h0 : ∀ L, ∃ u, (second 0).call g ys ((coupling text).at_ L t) = .error .exhausted u :=
    fun L => ⟨_, rfl⟩
  by_cases hm : f.movable = true
  · rcases movable_cases hm with ⟨i, name, rfl⟩ | ⟨i, name, rfl⟩
    swap
    · exact absurd hf Ties.Sends.closure
    obtain ⟨⟨engine, j⟩, hi, rfl⟩ := Ties.Sends.known hf
    obtain ⟨f, hfn, htwin⟩ := hst.bonds.function hi
    cases engine with
    | true =>
      refine Match.deeper (compiled_match hc hst hready hfn htwin hf hx)
        (fun m L => rfl) h0 fun m hm => ?_
      rw [cost] at hm
      omega
    | false =>
      have hfollows := Coupling.callFunction_follows (descent text) shared hE hf (fun s t hst => ?_) hx s t
        hst
      · refine Match.deeper hfollows (fun m L => rfl) h0 fun m hm => ?_
        rw [cost] at hm
        omega
      · obtain ⟨⟨literal, frame⟩, hfn, htwin⟩ := hst.bonds.function hi
        cases htwin with
        | @interpreted g l sc _ hg he hp henv =>
          rw [show literal = g.mapBytecode fun _ => none from he] at hfn
          exact .inr ⟨g, frame, l, sc, hfn, hg,
            hp, henv⟩
  · have hfollows := Coupling.apply_follows shared hE hf hx (fun h => absurd h hm) s t hst
    refine Match.deeper hfollows (fun m L => rfl) h0 fun m hm => ?_
    rw [cost] at hm
    omega

/-- The engines of the second do what those of the first do, and so do calls in compiled code. -/
theorem engines (text : String) (n : Nat) :
    (coupling text).Engines (lexical text) (fun m => cost m ≤ n) (first text n) second ∧
      CallsInCode text n := by
  have hassign : ∀ n w v x y, (coupling text).value w x y →
      (coupling text).Follows (fun m => cost m ≤ n) (coupling text).same
        (coupling text).fault w ((first text n).assign v x) fun m => (second m).assign v y := by
    intro n w v x y hx
    have hsecond : ∀ m, (second m).assign v y = Run.assign v y := fun m => by cases m <;> rfl
    simp only [first, Engine.assign_strict, hsecond]
    exact assign_follows v hx
  have hengines : ∀ n, (coupling text).Calls (fun m => cost m ≤ n) (first text n).call
        (fun m => (second m).call) →
      (coupling text).Engines (lexical text) (fun m => cost m ≤ n) (first text n) second :=
    fun n hcalls => {
      first := Engine.locals_strict ..
      second := fun m => Engine.locals_built ..
      call := hcalls
      late := fun _ w v args span _ => by
        simp only [first, Engine.late_strict]
        exact leaving_follows
      assign := hassign n
      enough := ⟨n, fun m hm => by
        simp only [first, Engine.rounds_strict, second, Engine.rounds_built]
        omega⟩
      few := fun m hm => by
        simp only [first, Engine.rounds_strict, second, Engine.rounds_built]
        have := le_cost m
        omega
      prompt := fun m => .inr fun _ => trivial }
  induction n with
  | zero =>
    refine ⟨hengines 0 fun w f g xs ys _ _ s t _ => ?_, callsInCode_zero⟩
    exact .exhausted (.inr fun m hm => absurd hm (Nat.not_le.mpr (cost_pos m)))
  | succ n ih =>
    have hcalls := calls_succ ih.1 ih.2
    exact ⟨hengines (n + 1) hcalls, callsInCode_succ ih.2 hcalls⟩

end Parity

end TwinLisp
