import AccessDepth.Proofs.Plan.Analysis

/-!
# AccessDepth.Proofs.Resume

Going on after an analysis that was cut short.

* `Plan.run_resumed` — code that is run on what its first operations left behind ends where it would
  have ended.
* `analyze_resumed` — an analysis that is stopped after any number of transactions and then made
  again in a new session ends in the store that it would have ended in.
-/

namespace AccessDepth

open Plan (Op Machine Setting Follows)

/-- The session, when the store takes that many more transactions. -/
def Session.cutAfter (s : Session) (k : Nat) : Session := { s with writesLeft := some k }

/-- Code that is run on what its first operations left behind ends where it would have ended. -/
theorem Plan.run_resumed {code done : List Op} {m m' m'' : Machine} (hc : ∀ o ∈ code, o.Closed)
    (hd : done <+: code) (hr : run done m = .ok m') (h : run code m = .ok m'') :
    run code ⟨m'.store, m.types⟩ = .ok m'' := by
  obtain ⟨rest, rfl⟩ := hd
  rw [run_append_of_ok hr] at h
  have settled := run_settled (fun o ho => hc o (List.mem_append_left rest ho)) hr (le_refl m'.store)
  rw [run_append_of_ok settled]
  exact h

/-- An analysis would succeed on a session. Stop it after any number of transactions and make it
again in a new session: it succeeds with the same result, and the store that it ends in is the same,
down to the last number. -/
theorem analyze_resumed {p : Package} {m : Mode} {s s' : Session} {skips : List Skip}
    (hc : p.types.Closed) (hs : SpelledAlike fun path => p.HasPath path ∨ s.store.HasPath path)
    (ha : s.Coherent) (h : analyze p m s = .ok skips s')
    (k typeCapacity fileCapacity : Nat) :
    ∃ t, analyze p m (Session.start ((analyze p m).leaves (s.cutAfter k)).store s.corpusRoot
        typeCapacity fileCapacity) = .ok skips t ∧
      t.store = s'.store := by
  let σ : Setting := ⟨s.corpusRoot, _, hs, fun _ => True⟩
  have known (path : Path) (hp : p.HasPath path) : σ.known path := .inl hp
  have follows {s₀ : Session} (hg : σ.Good s₀) := analyze_follows (fun _ => trivial) known m hg
  have agrees : s.Agrees σ.known := ha.agrees hs fun _ => .inr
  have closed := Package.code_closed hc σ.root m
  obtain ⟨types, whole, rfl, rfl⟩ := (follows ⟨rfl, agrees, trivial⟩).run_of_ok h
  have cut : σ.Good (s.cutAfter k) := ⟨rfl, agrees.grow (le_refl _), trivial⟩
  obtain ⟨-, done, m', hd, hr, left⟩ := (follows cut).begun
  have again := Plan.run_resumed closed hd hr whole
  rw [left] at again
  have fresh : σ.Good (Session.start ((analyze p m).leaves (s.cutAfter k)).store s.corpusRoot
      typeCapacity fileCapacity) := ⟨rfl, Session.agrees_start .., trivial⟩
  obtain ⟨x, t, ht, hstore, rfl, -⟩ := (follows fresh).ok_of_run rfl again
  exact ⟨t, ht, hstore⟩

/-- The small package, stopped after seven transactions. -/
theorem analyze_sample_resumed :
    ∃ skips s', analyze .sample .all .sample = .ok skips s' ∧
      ∃ t, analyze .sample .all (Session.start
          ((analyze .sample .all).leaves (Session.sample.cutAfter 7)).store ⟨"corpus"⟩ 1 1) =
            .ok skips t ∧
        t.store = s'.store := by
  obtain ⟨skips, s', h⟩ := Package.sample_succeeds
  exact ⟨skips, s', h, analyze_resumed Package.sample_closed
    Session.sample_spelledAlike Session.sample_coherent h 7 1 1⟩

end AccessDepth
