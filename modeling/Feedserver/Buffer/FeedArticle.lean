/-
# Buffer.FeedArticle — feedarticle.c over two vectors of string pointers

The submission of `Source.FeedArticle` again, with the pointers that its two vectors hold and
the strings they point to. A disposition is a string of its own from the start; when the fate of
its article is known, the vector's deleter frees it and another takes its place.

* `Stands`: the submission is what the pointers in the two blocks point to, and these pointers
  and the feed's are the strings that have been made and not yet freed.
* `add_stands`, `articleDisp_stands`, `submitLoop_stands`, `response_stands`: each function does
  what the function of `Source` does, and touches nothing outside of the blocks.
* `submission_life`: from `fa_submission_new` to `fa_submission_release`, for any articles and
  any dispositions, each string is freed once and not used from then on.
* `submitAll_disposed`: the dispositions of `submit_articles` are among these.
-/
import Feedserver.Articles.Submissions
import Feedserver.Buffer.Modifiers
import Feedserver.Buffer.UserFeed

namespace Feedserver.Buffer.Submission

open Feedserver.Theory
open Lifetimes (after)
open Traced (Ends report sequence stuck)

set_option autoImplicit false

/-- `fa_submission_t`, and the strings that `strdup` has made. -/
structure FaSubmission where
  strings : List CString
  feed : Ptr
  articles : VcVector Ptr
  disp : VcVector Ptr

abbrev Submitter (β : Type) := Traced FaSubmission (Event Ptr) Stuck β

/-! ## The functions -/

def strdup (s : CString) : Submitter Ptr := do
  let fa ← Traced.get
  Traced.set { fa with strings := fa.strings ++ [s] }
  return fa.strings.length

def onArticles {β : Type} (m : Vec Ptr β) : Submitter β :=
  Traced.zoom FaSubmission.articles (fun articles fa => { fa with articles }) m

def onDisp {β : Type} (m : Vec Ptr β) : Submitter β :=
  Traced.zoom FaSubmission.disp (fun disp fa => { fa with disp }) m

/-- The string that a pointer points to. -/
def follow (p : Ptr) : Submitter CString := do
  report (.follow p)
  let fa ← Traced.get
  match fa.strings[p]? with
  | some s => return s
  | none => stuck .unset

/-- `fa_submission_new`, and what is done with the submission then. -/
def faSubmissionNew {β : Type} (feed : CString) (rest : Submitter β) :
    Except Stuck (β × FaSubmission × List (Event Ptr)) :=
  match vcVectorCreate Ptr 1 POINTER_SIZE true with
  | none => .error .nullPointer
  | some vector => rest.run ⟨[feed], 0, vector, vector⟩

/-- `fa_submission_add_article`; how the key's text is put together is `Buffer.VcString`. -/
def faSubmissionAddArticle (article : CString) : Submitter Unit := do
  let disp ← strdup (lit "")
  let fa ← Traced.get
  let feed ← follow fa.feed
  let articleContent ← strdup (Source.articleKey feed article)
  let _ ← onArticles (vcVectorPushBack articleContent)
  let _ ← onDisp (vcVectorPushBack disp)

def faSubmissionArticleDisp (idx : Nat) (disp : CString) : Submitter Unit := do
  let dispContent ← strdup disp
  let _ ← onDisp (vcVectorReplace idx dispContent)

/-- The loop of `submit_articles`, for as many rounds as there is fuel; what becomes of an
article, at its place, is up to the database. -/
def submitRounds (verdict : Nat → CString → CString) : (fuel vecVa i : Nat) → Submitter Unit
  | 0, _, _ => stuck .endless
  | fuel + 1, vecVa, i => do
      let fa ← Traced.get
      if vecVa = vcVectorEnd fa.articles then return ()
      else do
        let p ← onArticles (load vecVa)
        let article ← follow p
        faSubmissionArticleDisp i (verdict i article)
        submitRounds verdict fuel (vcVectorNext fa.articles vecVa) (i + 1)

def submitLoop (verdict : Nat → CString → CString) : Submitter Unit := do
  let fa ← Traced.get
  submitRounds verdict (fa.articles.reservedSize + 1) (vcVectorBegin fa.articles) 0

/-- The loop of `fa_submission_response`, over the pointers. -/
def appendDisps : (fuel vval : Nat) → Source.VcVector UInt8 → Submitter (Source.VcVector UInt8)
  | 0, _, _ => stuck .endless
  | fuel + 1, vval, vs => do
      let fa ← Traced.get
      if vval = vcVectorEnd fa.disp then return vs
      else do
        let vs := Source.vcStringAppend vs (lit "\x7b\"disposition\": \"")
        let p ← onDisp (load vval)
        let disp ← follow p
        let vs := Source.vcStringAppend vs disp
        let vs := Source.vcStringAppend vs (lit "\"\x7d\n")
        let vs := if vcVectorNext fa.disp vval = vcVectorEnd fa.disp then vs
          else Source.vcStringAppend vs (lit ",\n")
        appendDisps fuel (vcVectorNext fa.disp vval) vs

def faSubmissionResponse : Submitter (Source.VcVector UInt8) := do
  let fa ← Traced.get
  let vs := Source.vcStringAppend Source.vcStringCreate (lit "\x7b\n\"articles\": [\n")
  let vs ← appendDisps (fa.disp.reservedSize + 1) (vcVectorBegin fa.disp) vs
  return Source.vcStringAppend vs (lit "]\n\x7d\n")

/-- `fa_submission_release`, up to where the structures are given back. -/
def faSubmissionRelease : Submitter Unit := do
  let fa ← Traced.get
  report (.delete fa.feed)
  onArticles vcVectorRelease
  onDisp vcVectorRelease

/-- What `submit_articles` does with a submission. -/
def submission (feed : CString) (contents : List CString) (verdict : Nat → CString → CString) :
    Except Stuck (Source.VcVector UInt8 × FaSubmission × List (Event Ptr)) :=
  faSubmissionNew feed do
    sequence faSubmissionAddArticle contents
    submitLoop verdict
    let vs ← faSubmissionResponse
    faSubmissionRelease
    return vs

/-! ## What a submission represents -/

/-- The pointers point to these texts. -/
def Points (strings : List CString) (pointers : List Ptr) (texts : List CString) : Prop :=
  pointers.map (strings[·]?) = texts.map some

/-- The pointers in the blocks point to the keys and the dispositions. -/
structure Represents (fa : FaSubmission) (kept disps : List Ptr) (sub : Source.FaSubmission) :
    Prop where
  articles : Holds POINTER_SIZE true fa.articles kept
  disp : Holds POINTER_SIZE true fa.disp disps
  keys : Points fa.strings kept sub.articles
  texts : Points fa.strings disps sub.disp
  feed : fa.strings[fa.feed]? = some sub.feed

/-- Of the strings that have been made, these are what the log so far has not freed. -/
def Owned (fa : FaSubmission) (live : List Ptr) (log : List (Event Ptr)) : Prop :=
  ∃ left, after (List.range fa.strings.length) (actsOf log) = some left ∧ left.Perm live

structure Stands (fa : FaSubmission) (kept disps : List Ptr) (sub : Source.FaSubmission)
    (log : List (Event Ptr)) : Prop where
  rep : Represents fa kept disps sub
  owned : Owned fa (fa.feed :: (kept ++ disps)) log
  sound : ∀ e ∈ log, e.Sound

section Owned

variable {fa fa' : FaSubmission} {live live' rest out : List Ptr} {log log' : List (Event Ptr)}

/-- More is done with what is live. -/
theorem Owned.step (owned : Owned fa live log)
    (ends : after live (actsOf log') = some live') : Owned fa live' (log ++ log') := by
  obtain ⟨left, before, perm⟩ := owned
  obtain ⟨left', ends', perm'⟩ := Lifetimes.after_perm perm.symm ends
  refine ⟨left', ?_, perm'.symm⟩
  rw [actsOf_append, Lifetimes.after_append, before]
  exact ends'

/-- A string that is made is live. -/
theorem Owned.strdup (owned : Owned fa live log)
    (made : fa'.strings.length = fa.strings.length + 1) :
    Owned fa' (fa.strings.length :: live) log := by
  obtain ⟨left, before, perm⟩ := owned
  refine ⟨left ++ [fa.strings.length], ?_, ?_⟩
  · rw [made, List.range_succ]
    exact Lifetimes.after_frame before _
  · exact List.perm_append_comm.trans (perm.cons _)

theorem Owned.perm (owned : Owned fa live log) (perm : live.Perm live') : Owned fa live' log := by
  obtain ⟨left, before, perm'⟩ := owned
  exact ⟨left, before, perm'.trans perm⟩

/-- Some of what is live is freed. -/
theorem Owned.frees (owned : Owned fa live log) (perm : live.Perm (out ++ rest))
    (acts : actsOf log' = out.map .free) : Owned fa rest (log ++ log') := by
  apply (owned.perm perm).step
  rw [acts]
  exact Lifetimes.after_frame (Lifetimes.after_frees out) rest

end Owned

section Points

variable {strings texts texts' : List CString} {pointers pointers' : List Ptr}

theorem Points.length (points : Points strings pointers texts) :
    pointers.length = texts.length := by
  have lengths := congrArg List.length points
  rwa [List.length_map, List.length_map] at lengths

theorem Points.get (points : Points strings pointers texts) {k : Nat} (inside : k < texts.length) :
    ∃ p, pointers[k]? = some p ∧ strings[p]? = some texts[k] := by
  have bound : k < pointers.length := points.length ▸ inside
  have same := congrArg (fun names => names[k]?) points
  exact ⟨pointers[k], List.getElem?_eq_getElem bound, by simpa [bound, inside] using same⟩

/-- A string that is made leaves the others where they are. -/
theorem found_strdup (s : CString) {p : Ptr} {text : CString} (found : strings[p]? = some text) :
    (strings ++ [s])[p]? = some text := by
  rw [List.getElem?_append_left (List.getElem?_eq_some_iff.1 found).1]
  exact found

theorem Points.strdup (points : Points strings pointers texts) (s : CString) :
    Points (strings ++ [s]) pointers texts := by
  rw [Points, ← points]
  apply List.map_congr_left
  intro p member
  have named : strings[p]? ∈ texts.map some := points ▸ List.mem_map_of_mem member
  obtain ⟨text, -, found⟩ := List.mem_map.1 named
  rw [← found]
  exact found_strdup s found.symm

theorem Points.concat (points : Points strings pointers texts) {p : Ptr} {text : CString}
    (found : strings[p]? = some text) : Points strings (pointers ++ [p]) (texts ++ [text]) := by
  rw [Points, List.map_append, List.map_append, points, List.map_singleton, found]
  rfl

theorem Points.set (points : Points strings pointers texts) (i : Nat) {p : Ptr} {text : CString}
    (found : strings[p]? = some text) : Points strings (pointers.set i p) (texts.set i text) := by
  rw [Points, List.map_set, List.map_set, points, found]

end Points

section Specs

variable {fa : FaSubmission} {kept disps : List Ptr} {sub : Source.FaSubmission}
  {log : List (Event Ptr)}

theorem strdup_run (fa : FaSubmission) (s : CString) : (strdup s).run fa =
    .ok (fa.strings.length, { fa with strings := fa.strings ++ [s] }, []) := by
  simp [strdup]

theorem Represents.strdup (rep : Represents fa kept disps sub) (s : CString) :
    Represents { fa with strings := fa.strings ++ [s] } kept disps sub where
  articles := rep.articles
  disp := rep.disp
  keys := rep.keys.strdup s
  texts := rep.texts.strdup s
  feed := found_strdup s rep.feed

theorem onArticles_run {β : Type} {m : Vec Ptr β} {b : β} {articles : VcVector Ptr}
    {log : List (Event Ptr)} (ran : m.run fa.articles = .ok (b, articles, log)) :
    (onArticles m).run fa = .ok (b, { fa with articles }, log) := by
  simp [onArticles, Traced.zoom, ran]

theorem onDisp_run {β : Type} {m : Vec Ptr β} {b : β} {disp : VcVector Ptr}
    {log : List (Event Ptr)} (ran : m.run fa.disp = .ok (b, disp, log)) :
    (onDisp m).run fa = .ok (b, { fa with disp }, log) := by
  simp [onDisp, Traced.zoom, ran]

theorem follow_run {p : Ptr} {text : CString} (found : fa.strings[p]? = some text) :
    (follow p).run fa = .ok (text, fa, [.follow p]) := by
  simp [follow, found]

theorem new_stands (feed : CString) {vector : VcVector Ptr}
    (created : vcVectorCreate Ptr 1 POINTER_SIZE true = some vector) :
    Stands ⟨[feed], 0, vector, vector⟩ [] [] (Source.faSubmissionNew feed) [] where
  rep := ⟨holds_create created, holds_create created, rfl, rfl, rfl⟩
  owned := ⟨[0], rfl, .refl _⟩
  sound := by simp

/-- `fa_submission_add_article`: both vectors get one element more. -/
theorem add_stands (stands : Stands fa kept disps sub log) (article : CString) :
    Ends (faSubmissionAddArticle article) fa fun _ fa' log' => ∃ kept' disps',
      Stands fa' kept' disps' (Source.faSubmissionAddArticle sub article) (log ++ log') := by
  have rep₁ := stands.rep.strdup (lit "")
  have rep₂ := rep₁.strdup (Source.articleKey sub.feed article)
  obtain ⟨_, articles, log₁, ran₁, -, holds₁, sound₁, quiet₁⟩ :=
    append_spec rep₂.articles [fa.strings.length + 1]
  obtain ⟨_, disp, log₂, ran₂, -, holds₂, sound₂, quiet₂⟩ :=
    append_spec rep₂.disp [fa.strings.length]
  have second : (fa.strings ++ [lit ""]).length = fa.strings.length + 1 := List.length_append
  refine Traced.ends_bind_of_run (strdup_run fa (lit "")) ?_
  refine Traced.ends_bind_of_run rfl ?_
  refine Traced.ends_bind_of_run (follow_run rep₁.feed) ?_
  refine Traced.ends_bind_of_run (strdup_run _ _) ?_
  dsimp only
  rw [second]
  refine Traced.ends_bind_of_run (onArticles_run ran₁) ?_
  refine Traced.ends_bind_of_run (onDisp_run ran₂) ?_
  refine Traced.ends_pure
    ⟨kept ++ [fa.strings.length + 1], disps ++ [fa.strings.length], ?_, ?_, ?_⟩
  · refine ⟨holds₁, holds₂, rep₂.keys.concat ?_, rep₂.texts.concat ?_, rep₂.feed⟩
    · rw [← second]
      exact List.getElem?_concat_length
    · exact found_strdup _ List.getElem?_concat_length
  · have made₁ : Owned { fa with strings := fa.strings ++ [lit ""] } (fa.strings.length ::
        fa.feed :: (kept ++ disps)) log := stands.owned.strdup second
    have made₂ : Owned ⟨fa.strings ++ [lit ""] ++ [Source.articleKey sub.feed article], fa.feed,
        articles, disp⟩ ((fa.strings ++ [lit ""]).length :: fa.strings.length :: fa.feed ::
          (kept ++ disps)) log := made₁.strdup List.length_append
    rw [second] at made₂
    have order : ((fa.strings.length + 1) :: fa.strings.length :: fa.feed :: (kept ++ disps)).Perm
        (fa.feed :: (kept ++ [fa.strings.length + 1] ++ (disps ++ [fa.strings.length]))) := by
      grind
    apply (made₂.perm order).step
    simp only [actsOf_append, quiet₁, quiet₂]
    exact Lifetimes.after_use_iff.2 ⟨List.mem_cons_self, rfl⟩
  · simpa [or_imp, forall_and, sound_follow] using ⟨stands.sound, sound₁, sound₂⟩

/-- `fa_submission_article_disp`: the string that was there is freed. -/
theorem articleDisp_stands (stands : Stands fa kept disps sub log) {i : Nat}
    (inside : i < sub.disp.length) (disp : CString) :
    Ends (faSubmissionArticleDisp i disp) fa fun _ fa' log' => ∃ disps',
      Stands fa' kept disps' (Articles.FaSubmission.dispose sub i disp) (log ++ log') ∧
        fa'.articles = fa.articles := by
  have rep₁ := stands.rep.strdup disp
  have bound : i < disps.length := stands.rep.texts.length ▸ inside
  obtain ⟨_, vector, log', ran, -, holds, acts, sound⟩ :=
    replace_spec rep₁.disp bound fa.strings.length
  refine Traced.ends_bind_of_run (strdup_run fa disp) ?_
  refine Traced.ends_bind_of_run (onDisp_run ran) ?_
  refine Traced.ends_pure ⟨disps.set i fa.strings.length, ⟨?_, ?_, ?_⟩, rfl⟩
  · exact ⟨rep₁.articles, holds, rep₁.keys, rep₁.texts.set i List.getElem?_concat_length,
      rep₁.feed⟩
  · have made : Owned ⟨fa.strings ++ [disp], fa.feed, fa.articles, vector⟩
        (fa.strings.length :: fa.feed :: (kept ++ disps)) log :=
      stands.owned.strdup List.length_append
    have inRange : (VectorOp.replace i fa.strings.length).InRange POINTER_SIZE disps := bound
    have swap := VectorOp.perm _ inRange
    rw [VectorOp.meaning, VectorOp.dropped, VectorOp.added] at swap
    have before : (fa.strings.length :: fa.feed :: (kept ++ disps)).Perm
        (disps ++ [fa.strings.length] ++ (fa.feed :: kept)) := by grind
    have behind : (disps.set i fa.strings.length ++ (disps.drop i).take 1 ++ (fa.feed :: kept)).Perm
        ((disps.drop i).take 1 ++ fa.feed :: (kept ++ disps.set i fa.strings.length)) := by grind
    simp only [List.append_nil, List.nil_append]
    exact made.frees (before.trans ((swap.symm.append_right _).trans behind)) acts
  · simpa [or_imp, forall_and] using ⟨stands.sound, sound⟩

/-- An element's pointer is loaded and followed. -/
theorem load_follow_spec {β : Type} {part : FaSubmission → VcVector Ptr}
    {replace : VcVector Ptr → FaSubmission → FaSubmission} {pointers : List Ptr}
    {texts : List CString} (back : replace (part fa) fa = fa)
    (holds : Holds POINTER_SIZE true (part fa) pointers) (points : Points fa.strings pointers texts)
    {live : List Ptr} (among : pointers ⊆ live) {k : Nat} (inside : k < texts.length)
    {next : CString → Submitter β} {Q : β → FaSubmission → List (Event Ptr) → Prop}
    (rest : ∀ events, (∀ e ∈ events, e.Sound) → after live (actsOf events) = some live →
      Ends (next texts[k]) fa fun b fa' log' => Q b fa' (events ++ log')) :
    Ends (do
      let p ← Traced.zoom part replace (load (vcVectorAt (part fa) k))
      let text ← follow p
      next text) fa Q := by
  have bound : k < pointers.length := points.length ▸ inside
  obtain ⟨p, here, found⟩ := points.get inside
  have at_ : pointers[k] = p := Option.some.inj ((List.getElem?_eq_getElem bound).symm.trans here)
  have loaded : (Traced.zoom part replace (load (vcVectorAt (part fa) k))).run fa =
      .ok (p, fa,
        [.touch (vcVectorAt (part fa) k) (part fa).elementSize (part fa).reservedSize]) := by
    simp [Traced.zoom, load_run holds bound, back, at_]
  have used : p ∈ live := among (List.mem_of_getElem? here)
  have within := holds.element_inside bound
  refine Traced.ends_bind_of_run loaded (Traced.ends_bind_of_run (follow_run found) ?_)
  refine rest [.touch _ _ _, .follow p] ?_ ?_
  · simpa [sound_touch_iff, sound_follow] using within
  · exact Lifetimes.after_use_iff.2 ⟨used, rfl⟩

/-- What the loop of `submit_articles` makes of a submission. -/
def disposed (verdict : Nat → CString → CString) (sub : Source.FaSubmission) :
    Source.FaSubmission :=
  { sub with disp := sub.articles.mapIdx verdict }

/-- A disposition written at its place, in the middle of the others. -/
theorem take_dispose {disps verdicts : List CString} {i : Nat} {disp : CString}
    (inside : i < disps.length) (here : verdicts[i]? = some disp) :
    (disps.set i disp).take (i + 1) ++ verdicts.drop (i + 1) =
      disps.take i ++ verdicts.drop i := by
  obtain ⟨bound, rfl⟩ := List.getElem?_eq_some_iff.1 here
  rw [List.take_add_one, List.take_set_of_le le_rfl, List.getElem?_set_self inside,
    List.drop_eq_getElem_cons bound]
  simp

/-- The loop over the articles, from one on: the dispositions before it are as they were. -/
theorem submitRounds_stands (verdict : Nat → CString → CString) {fuel k : Nat}
    (stands : Stands fa kept disps sub log) (lockstep : Articles.Lockstep sub)
    (behind : k ≤ sub.articles.length) (enough : sub.articles.length < k + fuel) :
    Ends (submitRounds verdict fuel (vcVectorAt fa.articles k) k) fa fun _ fa' log' =>
      ∃ disps', Stands fa' kept disps' { sub with
        disp := sub.disp.take k ++ (sub.articles.mapIdx verdict).drop k } (log ++ log') := by
  induction fuel generalizing k fa disps sub log with
  | zero => omega
  | succ fuel ih =>
      have counted : fa.articles.count = sub.articles.length :=
        stands.rep.articles.count.trans stands.rep.keys.length
      apply Traced.ends_bind_of_run rfl
      show Ends (if vcVectorAt fa.articles k = vcVectorEnd fa.articles then _ else _) fa _
      by_cases last : k = sub.articles.length
      · rw [if_pos ((at_end_iff _ _).2 (last.trans counted.symm))]
        refine Traced.ends_pure ⟨disps, ?_⟩
        have whole : sub.disp.take k ++ (sub.articles.mapIdx verdict).drop k = sub.disp := by
          rw [List.drop_eq_nil_of_le (by rw [List.length_mapIdx]; omega), List.append_nil]
          exact List.take_of_length_le (Nat.le_of_eq (Eq.trans lockstep last.symm))
        rw [whole]
        simpa using stands
      · have inside : k < sub.articles.length := by omega
        have room : k < sub.disp.length := lockstep ▸ inside
        rw [if_neg fun here => last (((at_end_iff _ _).1 here).trans counted)]
        have among : kept ⊆ fa.feed :: (kept ++ disps) := fun p member =>
          List.mem_cons_of_mem _ (List.mem_append_left _ member)
        apply load_follow_spec rfl stands.rep.articles stands.rep.keys among inside
        intro events sound used
        have stands₁ : Stands fa kept disps sub (log ++ events) :=
          ⟨stands.rep, stands.owned.step used, List.forall_mem_append.2 ⟨stands.sound, sound⟩⟩
        apply (articleDisp_stands stands₁ room (verdict k sub.articles[k])).bind
        rintro _ fa' log' ⟨disps', stands', unmoved⟩
        rw [next_at, ← unmoved]
        have left : sub.articles.length < k + 1 + fuel := by omega
        apply (ih stands' (Eq.trans (List.length_set ..) lockstep) inside left).mono
        rintro _ fa'' log'' ⟨disps'', stands''⟩
        have here : (sub.articles.mapIdx verdict)[k]? = some (verdict k sub.articles[k]) := by
          simp [inside]
        refine ⟨disps'', ?_⟩
        rw [← take_dispose room here, List.nil_append, ← List.append_assoc, ← List.append_assoc]
        exact stands''

theorem fuel_enough {α : Type} {v : VcVector α} {l : List α} {size : Nat} {deleter : Bool}
    (holds : Holds size deleter v l) : l.length < 0 + (v.reservedSize + 1) := by
  have fits := holds.fits
  have bytes := Nat.le_mul_of_pos_right v.data.length v.positive
  rw [v.sized] at bytes
  omega

theorem submitLoop_stands (verdict : Nat → CString → CString)
    (stands : Stands fa kept disps sub log) (lockstep : Articles.Lockstep sub) :
    Ends (submitLoop verdict) fa fun _ fa' log' =>
      ∃ disps', Stands fa' kept disps' (disposed verdict sub) (log ++ log') := by
  have start : vcVectorBegin fa.articles = vcVectorAt fa.articles 0 := (Nat.zero_mul _).symm
  have enough := fuel_enough stands.rep.articles
  rw [stands.rep.keys.length] at enough
  apply Traced.ends_bind_of_run rfl
  rw [start]
  exact submitRounds_stands verdict stands lockstep (Nat.zero_le _) enough

/-- The loop over the dispositions, from one on. -/
theorem appendDisps_spec (rep : Represents fa kept disps sub) {live : List Ptr}
    (among : disps ⊆ live) {fuel k : Nat} (behind : k ≤ sub.disp.length)
    (enough : sub.disp.length < k + fuel) (vs : Source.VcVector UInt8) :
    Ends (appendDisps fuel (vcVectorAt fa.disp k) vs) fa fun vs' fa' log' => fa' = fa ∧
      vs' = Source.appendDisps (sub.disp.drop k) vs ∧ (∀ e ∈ log', e.Sound) ∧
        after live (actsOf log') = some live := by
  have counted : fa.disp.count = sub.disp.length := rep.disp.count.trans rep.texts.length
  have at_end (k : Nat) : vcVectorAt fa.disp k = vcVectorEnd fa.disp ↔ k = sub.disp.length := by
    rw [at_end_iff, counted]
  induction fuel generalizing k vs with
  | zero => omega
  | succ fuel ih =>
      apply Traced.ends_bind_of_run rfl
      show Ends (if vcVectorAt fa.disp k = vcVectorEnd fa.disp then _ else _) fa _
      by_cases last : k = sub.disp.length
      · rw [if_pos ((at_end k).2 last)]
        refine Traced.ends_pure ⟨rfl, ?_, by simp, rfl⟩
        rw [last, List.drop_length]
        rfl
      · have inside : k < sub.disp.length := by omega
        rw [if_neg fun here => last ((at_end k).1 here)]
        apply load_follow_spec rfl rep.disp rep.texts among inside
        intro events sound used
        rw [next_at]
        apply (ih inside (by omega) _).mono
        rintro vs' fa' log' ⟨same, rfl, sound', used'⟩
        rw [List.nil_append]
        refine ⟨same, ?_, List.forall_mem_append.2 ⟨sound, sound'⟩, ?_⟩
        · have more : sub.disp.drop (k + 1) = [] ↔ k + 1 = sub.disp.length := by
            rw [List.drop_eq_nil_iff]
            omega
          rw [List.drop_eq_getElem_cons inside]
          simp only [Source.appendDisps, at_end, more]
        · rw [actsOf_append, Lifetimes.after_append, used]
          exact used'

/-- `fa_submission_response`: the text of `Source`, and nothing else. -/
theorem response_stands (stands : Stands fa kept disps sub log) :
    Ends faSubmissionResponse fa fun vs fa' log' => vs = Source.faSubmissionResponse sub ∧
      Stands fa' kept disps sub (log ++ log') := by
  have start : vcVectorBegin fa.disp = vcVectorAt fa.disp 0 := (Nat.zero_mul _).symm
  have enough := fuel_enough stands.rep.disp
  rw [stands.rep.texts.length] at enough
  have among : disps ⊆ fa.feed :: (kept ++ disps) := fun p member =>
    List.mem_cons_of_mem _ (List.mem_append_right _ member)
  apply Traced.ends_bind_of_run rfl
  rw [start]
  apply (appendDisps_spec stands.rep among (Nat.zero_le _) enough _).bind
  rintro vs fa' log' ⟨rfl, rfl, sound, used⟩
  refine Traced.ends_pure ⟨rfl, ?_⟩
  rw [List.nil_append, List.append_nil]
  exact ⟨stands.rep, stands.owned.step used, List.forall_mem_append.2 ⟨stands.sound, sound⟩⟩

/-- `fa_submission_release`: nothing is live behind it. -/
theorem release_stands (stands : Stands fa kept disps sub log) :
    Ends faSubmissionRelease fa fun _ fa' log' => fa' = fa ∧ Owned fa [] (log ++ log') ∧
      ∀ e ∈ log ++ log', e.Sound := by
  obtain ⟨⟨⟩, articles, log₁, ran₁, rfl, acts₁, sound₁⟩ := release_spec stands.rep.articles
  obtain ⟨⟨⟩, disp, log₂, ran₂, rfl, acts₂, sound₂⟩ := release_spec stands.rep.disp
  apply Traced.ends_bind_of_run rfl
  apply Traced.ends_bind_of_run rfl
  apply Traced.ends_bind_of_run (onArticles_run ran₁)
  refine ⟨(), fa, log₂, onDisp_run ran₂, rfl, ?_, ?_⟩
  · have whole : (fa.feed :: (kept ++ disps)).Perm (fa.feed :: (kept ++ disps) ++ []) := by simp
    refine stands.owned.frees whole ?_
    simp only [actsOf_append, acts₁, acts₂, List.map_cons, List.map_append]
    rfl
  · have fed : (Event.delete fa.feed).Sound := ⟨trivial, trivial⟩
    simpa [or_imp, forall_and, fed] using ⟨stands.sound, sound₁, sound₂⟩

end Specs

/-! ## A submission from beginning to end -/

/-- The submission of these articles to a feed. -/
def submissionOf (feed : CString) (contents : List CString) : Source.FaSubmission :=
  contents.foldl Source.faSubmissionAddArticle (Source.faSubmissionNew feed)

theorem lockstep_submissionOf (feed : CString) (contents : List CString) :
    Articles.Lockstep (submissionOf feed contents) := by
  have grown (sub : Source.FaSubmission) (lockstep : Articles.Lockstep sub) :
      Articles.Lockstep (contents.foldl Source.faSubmissionAddArticle sub) := by
    induction contents generalizing sub with
    | nil => exact lockstep
    | cons content rest ih => exact ih _ (lockstep.addArticle content)
  exact grown _ (Articles.lockstep_new feed)

theorem sequence_stands {fa : FaSubmission} {kept disps : List Ptr} {sub : Source.FaSubmission}
    {log : List (Event Ptr)} (stands : Stands fa kept disps sub log) (contents : List CString) :
    Ends (sequence faSubmissionAddArticle contents) fa fun _ fa' log' => ∃ kept' disps',
      Stands fa' kept' disps' (contents.foldl Source.faSubmissionAddArticle sub) (log ++ log') := by
  have admitted : Traced.Admitted (fun _ _ => True) Source.faSubmissionAddArticle sub contents :=
    Traced.admitted_of_forall (fun _ _ => trivial) sub contents
  refine Traced.ends_sequence_log
    (I := fun fa sub log => ∃ kept disps, Stands fa kept disps sub log) ?_ ⟨kept, disps, stands⟩
    admitted
  rintro fa sub content log ⟨kept, disps, stands⟩ -
  exact add_stands stands content

/-- Whatever the database answers, what the handler's own loop makes of a submission is what some
verdicts make of it. -/
theorem submitAll_disposed {sub : Source.FaSubmission} (lockstep : Articles.Lockstep sub)
    {log : List (Theory.Event Source.calls)} {outcome : Except Source.Fault Source.FaSubmission}
    (finished : Program.Finishes (Source.submitAll sub) log outcome) :
    ∃ verdict, outcome = .ok (disposed verdict sub) := by
  obtain ⟨puts, tried, -, rfl⟩ := Articles.finishes_submitAll lockstep finished
  refine ⟨fun i _ => (puts.map Articles.dispositionOf).getD i (lit ""), ?_⟩
  have same : sub.articles.length = puts.length := tried.length_eq
  congr 2
  apply List.ext_getElem
  · simp [same]
  · intro i less _
    simp [List.getElem?_eq_getElem (by simpa using less : i < puts.length)]

/-- **A submission's life.** Whatever the articles and whatever becomes of them, a submission
that is filled, disposed, reported and released answers with the text of `Source`'s and touches
nothing outside of its two blocks, and each string made for it is freed exactly once and is not
used from then on. The dispositions are those of any verdicts, and so, by `submitAll_disposed`,
those of the handler in any run. -/
theorem submission_life (feed : CString) (contents : List CString)
    (verdict : Nat → CString → CString) : ∃ fa log,
      submission feed contents verdict =
        .ok (Source.faSubmissionResponse (disposed verdict (submissionOf feed contents)), fa, log) ∧
      (∀ e ∈ log, e.Inside) ∧
        ∀ p < fa.strings.length, Lifetimes.FreedOnce p (actsOf log) := by
  unfold submission faSubmissionNew
  cases created : vcVectorCreate Ptr 1 POINTER_SIZE true with
  | none => cases created
  | some vector =>
      have life : Ends (do
          sequence faSubmissionAddArticle contents
          submitLoop verdict
          let vs ← faSubmissionResponse
          faSubmissionRelease
          return vs) ⟨[feed], 0, vector, vector⟩ fun vs fa log =>
            vs = Source.faSubmissionResponse (disposed verdict (submissionOf feed contents)) ∧
              Owned fa [] log ∧ ∀ e ∈ log, e.Sound := by
        apply (sequence_stands (new_stands feed created) contents).bind
        rintro _ fa₁ log₁ ⟨kept, disps₁, stands₁⟩
        apply (submitLoop_stands verdict stands₁ (lockstep_submissionOf feed contents)).bind
        rintro _ fa₂ log₂ ⟨disps₂, stands₂⟩
        apply (response_stands stands₂).bind
        rintro vs fa₃ log₃ ⟨rfl, stands₃⟩
        apply (release_stands stands₃).bind
        rintro _ fa₄ log₄ ⟨rfl, owned, sound⟩
        refine Traced.ends_pure ⟨rfl, ?_, ?_⟩
        · simpa using owned
        · simpa using sound
      obtain ⟨vs, fa, log, ran, rfl, ⟨left, ends, perm⟩, sound⟩ := life
      refine ⟨fa, log, ran, fun e member => (sound e member).inside, ?_⟩
      intro p made
      obtain rfl := perm.eq_nil
      exact Lifetimes.freedOnce_of_after List.nodup_range ends (List.mem_range.2 made)
        List.not_mem_nil

/-- Two articles, the second of which is rejected: the strings behind the feed's come in threes,
and the empty disposition is the first of each. -/
example : (submission (lit "f") [lit "a", lit ""] fun i _ => if i = 0 then lit "accepted"
    else lit "rejected").toOption.map (fun built => actsOf built.2.2) = some
      [.use 0, .use 0, .use 2, .free 1, .use 4, .free 3, .use 5, .use 6,
        .free 0, .free 2, .free 4, .free 5, .free 6] := by decide

end Feedserver.Buffer.Submission
