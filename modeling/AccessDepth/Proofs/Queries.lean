import AccessDepth.Proofs.Interners
import AccessDepth.Proofs.Steps

/-!
# AccessDepth.Proofs.Queries

What may be asked of a context, one query after the other.

* `Query`, `Reply` — an analysis, the row of a type or of a file, or what is recorded at a place.
* `Query.run_steps` — whatever is asked is put together from steps.
* `Session.asks` — queries in one session.
* `Contexts.ask`, `asks` — queries to several contexts of one store. A query may fail, also because
  the store stops to take transactions.
* `Contexts.asks_keep` — what they leave keeps the rules of the schema, and what is cached is stored.
-/

namespace AccessDepth

open Session (Ready LeadsTo)

inductive Query where
  | analysis (p : Package) (mode : Mode)
  | type (table : TypeTable) (ref : Option TypeRef)
  | file (path : Path)
  | definition (site : SourceSite)
  | varAt (site : SourceSite)

inductive Reply where
  | skips (skips : List Skip)
  | type (id : TypeId)
  | file (id : FileId)
  | definition (place : Option (FileId × Position))
  | varAt (id : Option VariableId)

namespace Query

def run : Query → Analyze Reply
  | .analysis p mode => analyze p mode >>= fun skips => pure (.skips skips)
  | .type table ref => Analyze.typeId table ref >>= fun id => pure (.type id)
  | .file path => Analyze.fileId path >>= fun id => pure (.file id)
  | .definition site => Analyze.definition site >>= fun place => pure (.definition place)
  | .varAt site => Analyze.variableAt site >>= fun id => pure (.varAt id)

/-- What a query is answered with in a session, and the session that it leaves. -/
def answer (q : Query) (s : Session) : Except Failure Reply × Session :=
  match q.run s with
  | .ok x s' => (.ok x, s')
  | .error f s' => (.error f, s')

theorem answer_leaves (q : Query) (s : Session) : (q.answer s).2 = q.run.leaves s := by
  unfold answer Analyze.leaves
  cases q.run s <;> rfl

/-- Whether a query speaks of a path. -/
inductive HasPath : Query → Path → Prop
  | analysis {p mode path} : p.HasPath path → HasPath (.analysis p mode) path
  | file {path} : HasPath (.file path) path
  | definition {site} : HasPath (.definition site) site.file
  | varAt {site} : HasPath (.varAt site) site.file

theorem run_steps {known : Path → Prop} (q : Query) (hq : ∀ path, q.HasPath path → known path) :
    Analyze.Steps (fun _ => True) known q.run := by
  cases q with
  | analysis p mode =>
    exact (analyze_steps (fun path hp => hq path (.analysis hp)) mode).bind fun _ => .ret _
  | type table ref => exact .bind (.type table ref fun _ _ => trivial) fun _ => .ret _
  | file path => exact .bind (.file path (hq _ .file) fun _ _ => trivial) fun _ => .ret _
  | definition site =>
    exact .bind (.definition site (hq _ .definition) fun _ _ => trivial) fun _ => .ret _
  | varAt site => exact .bind (.varAt site (hq _ .varAt)) fun _ => .ret _

theorem answer_leads (q : Query) {s : Session} (hs : Ready s) :
    LeadsTo (fun _ => True) s (q.answer s).2 := by
  rw [answer_leaves]
  exact ((@run_steps (fun _ => True) q fun _ _ => trivial).stays.ends s hs).leaves

end Query

/-- What queries are answered with one after the other, and the session that they leave. -/
def Session.asks (s : Session) : List Query → List (Except Failure Reply) × Session
  | [] => ([], s)
  | q :: qs =>
    let (x, s) := q.answer s
    let (xs, s) := s.asks qs
    (x :: xs, s)

/-- A query to a context, on a store that takes so many transactions. -/
structure Asked (ι : Type) where
  context : ι
  query : Query
  writesLeft : Option Nat

namespace Contexts

variable {ι : Type} [DecidableEq ι]

/-- Answers a query and leaves the store and the caches as they are then. -/
def ask (w : Contexts ι) (q : Asked ι) : Except Failure Reply × Contexts ι :=
  let (x, s) := q.query.answer ((w.context q.context).session w.store q.writesLeft)
  (x, w.leave q.context s)

/-- Answers queries one after the other. -/
def asks (w : Contexts ι) : List (Asked ι) → List (Except Failure Reply) × Contexts ι
  | [] => ([], w)
  | q :: qs =>
    let (x, w) := w.ask q
    let (xs, w) := w.asks qs
    (x :: xs, w)

theorem ask_keeps {w : Contexts ι} (hs : w.store.Sound) (hc : w.Coherent) (q : Asked ι) :
    (w.ask q).2.store.Sound ∧ (w.ask q).2.Coherent := by
  let s := (w.context q.context).session w.store q.writesLeft
  have led := q.query.answer_leads (s := s) ⟨hs, hc _ _⟩
  have left : (w.ask q).2 = w.leave q.context (q.query.answer s).2 := rfl
  rw [left]
  refine ⟨led.ready.sound, fun i writesLeft => ?_⟩
  by_cases hi : i = q.context
  · simp only [leave, hi, if_true, Context.session_ofSession]
    exact led.ready.coherent.grow (le_refl _) _
  · simp only [leave, hi, if_false]
    exact (hc i writesLeft).grow led.inserts.le _

theorem asks_keep {w : Contexts ι} (hs : w.store.Sound) (hc : w.Coherent) (qs : List (Asked ι)) :
    (w.asks qs).2.store.Sound ∧ (w.asks qs).2.Coherent := by
  induction qs generalizing w with
  | nil => exact ⟨hs, hc⟩
  | cons q qs ih =>
    obtain ⟨sound, coherent⟩ := ask_keeps hs hc q
    exact ih sound coherent

end Contexts
end AccessDepth
