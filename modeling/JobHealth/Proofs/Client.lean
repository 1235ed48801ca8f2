import Mathlib.Data.List.Nodup
import JobHealth.Client
import JobHealth.Proofs.Agreement
import JobHealth.Proofs.Build
import JobHealth.Proofs.Endpoint
import JobHealth.Proofs.Url.Appended
import JobHealth.Url.Domain
/-!
# `JobHealth.Proofs.Client` — a job over HTTP is examined like the job in memory

Between a server's history and the builds that a client gets lie a URL, a
status, a JSON text and bytes in chunks.  None of them changes anything: over a
server that answers for a history, an examination comes to what it comes to
over that history in memory, and asks for the same.

| what is asked for | where                                     | the answer             |
| :---------------- | :---------------------------------------- | :--------------------- |
| a page            | the job's builds, with a limit in a query | 200, `Build.PageText`  |
| a feed            | `events` behind the build's own path      | 2xx, `writeBody`       |
|                   |                                           | or the given status    |

What a server answers is said by the URLs that the texts name, not by the
requests of the client.  Such a server exists for each address and history of
builds with plain paths that differ.
-/

namespace JobHealth

open JobHealth.Feed JobHealth.Text

/-! ## Servers -/

/-- A URL as the server that it names sees it. -/
def Url.seen (u : Url) : Url := { u with username := [], password := none, fragment := none }

/-- A path that begins with a slash and in which no character has a meaning. -/
def PlainPath (path : String) : Prop := ∃ cs, path.toList = '/' :: cs ∧ Url.Plain cs

/-- A record whose data, if there are any, are one line. -/
structure Feed.Record.OneLine (r : Record) : Prop where
  event : SingleLine r.event.toList
  data : ∀ d, r.data = some d → d ≠ "" ∧ SingleLine d.toList

/-- What a server has for a build: the records of its feed, or a status with which it refuses. -/
inductive Held where
  | records (rs : List Record)
  | refused (status : Nat)

/-- The records can be written line by line, and the status says that the request failed. -/
inductive Held.Servable : Held → Prop
  | records {rs : List Record} : (∀ r ∈ rs, r.OneLine) → Servable (.records rs)
  | refused {status : Nat} : 400 ≤ status → status < 600 → Servable (.refused status)

/-- The same, kept in memory. -/
def Held.stored : Held → StoredFeed
  | .records rs => .open (Arrivals.ofItems (rs.map .ok))
  | .refused status => .refused status

/-- A body that brings a text to its end, however it is cut. -/
def Brings (body : List Chunk) (text : List Char) : Prop :=
  bytesOf body = Utf8.encode text ∧ reasonsOf body = []

inductive AnswersPage (page : List Build) : Reply → Prop
  | mk {body : List Chunk} {text : List Char} : Build.PageText page text → Brings body text →
      AnswersPage page (.response 200 body)

inductive AnswersFeed : Held → Reply → Prop
  | records {rs : List Record} {status : Nat} {body : List Chunk} : 200 ≤ status → status < 300 →
      Brings body (writeBody rs) → AnswersFeed (.records rs) (.response status body)
  | refused {status : Nat} {body : List Chunk} :
      AnswersFeed (.refused status) (.response status body)

/-- Where a server lists the builds of the client's job. -/
def Client.listing (c : Client) : String :=
  c.base ++ ("/api/v1/teams/" ++ c.team ++ "/pipelines/" ++ c.pipeline ++ "/jobs/" ++ c.job ++
    "/builds")

/-- Where a server streams the events of a build. -/
def Client.stream (c : Client) (b : Build) : String := c.base ++ b.apiUrl ++ "/events"

/-- The reply is what a server with that history has for the URL requested: the page with a limit
in its query, or the feed of a build. -/
structure Client.Answers (toAscii : Url.ToAscii) (c : Client) (history : List Build)
    (held : Build → Held) (r : Request) (reply : Reply) : Prop where
  page : ∀ limit u, Url.parse toAscii c.listing.toList = .ok u →
    r.url.seen = (u.addQuery "limit" limit).seen → AnswersPage (history.take limit) reply
  feed : ∀ u, ∀ b ∈ history, Url.parse toAscii (c.stream b).toList = .ok u → r.url.seen = u.seen →
    AnswersFeed (held b) reply

/-- A server with that history of the client's job is behind the transport. -/
def Client.Serves (toAscii : Url.ToAscii) (c : Client) (history : List Build)
    (held : Build → Held) (t : Transport) : Prop :=
  ∀ before r, c.Answers toAscii history held r (t before r)

variable {toAscii : Url.ToAscii}

/-! ## Requests -/

theorem seen_publicUrl (u : Url) : (Client.publicUrl u).seen = u.seen := by
  unfold Client.publicUrl
  dsimp only
  split <;> split <;> rfl

theorem scheme_publicUrl (u : Url) : (Client.publicUrl u).scheme = u.scheme := by
  have hscheme := congrArg Url.scheme (seen_publicUrl u)
  exact hscheme

theorem scheme_addQuery (u : Url) (name : String) (n : Nat) :
    (u.addQuery name n).scheme = u.scheme := rfl

theorem seen_addQuery (u : Url) (name : String) (n : Nat) :
    (u.addQuery name n).seen = u.seen.addQuery name n := rfl

/-- A request that can be built asks for what its text names. -/
theorem request_eq_ok {c : Client} {text accept : String} {limit : Option Nat} {r : Request}
    (h : c.request toAscii text limit accept = .ok r) :
    ∃ u, Url.parse toAscii text.toList = .ok u ∧
      (u.scheme = "http".toList ∨ u.scheme = "https".toList) ∧
      r.url.seen = match limit with
        | some n => (u.addQuery "limit" n).seen
        | none => u.seen := by
  rw [Client.request] at h
  cases hparse : Url.parse toAscii text.toList with
  | error f => simp only [hparse, reduceCtorEq] at h
  | ok u =>
      have hpublic := seen_publicUrl u
      have hscheme := scheme_publicUrl u
      simp only [hparse] at h
      split at h
      · cases h
      · split at h
        · cases h
        · cases limit with
          | none =>
              dsimp only at h ⊢
              split at h
              · next hhttp =>
                obtain rfl := Except.ok.inj h
                rw [hscheme, Bool.or_eq_true, decide_eq_true_eq, decide_eq_true_eq] at hhttp
                exact ⟨u, rfl, hhttp, hpublic⟩
              · cases h
          | some n =>
              dsimp only at h ⊢
              split at h
              · next hhttp =>
                obtain rfl := Except.ok.inj h
                rw [scheme_addQuery, hscheme, Bool.or_eq_true, decide_eq_true_eq,
                  decide_eq_true_eq] at hhttp
                refine ⟨u, rfl, hhttp, ?_⟩
                rw [seen_addQuery, hpublic, seen_addQuery]
              · cases h

/-! ## Replies -/

theorem wholeBody?_of_sound {body : List Chunk} (h : reasonsOf body = []) :
    Client.wholeBody? body = some (bytesOf body) := by
  induction body with
  | nil => rfl
  | cons c body ih =>
      cases c with
      | bytes bs => rw [Client.wholeBody?, ih h, bytesOf]; rfl
      | failure reason => cases h
      | pending => exact ih h

/-- A character that bytes spell is read off them as it is. -/
theorem Json.frontChar?_of_spells {c : Char} {bs : List UInt8} (h : Utf8.Spells c bs)
    (rest : List UInt8) : frontChar? (bs ++ rest) = some (c, rest) := by
  have hwhole : Utf8.decode bs = .ok [c] := by
    have hdecode := Utf8.decodeFrom_of_spells h 0 []
    rwa [List.append_nil] at hdecode
  obtain ⟨before, after, hlengths⟩ := List.append_of_mem h.length_mem
  have hsorted : (before ++ bs.length :: after).Pairwise (· < ·) := hlengths ▸ by decide
  rw [frontChar?, List.findSome?_eq_some_iff]
  refine ⟨before, bs.length, after, hlengths, ?_, fun n hn => ?_⟩
  · simp only [List.take_left, hwhole, List.drop_left]
  · have hlt : n < bs.length := (List.pairwise_append.mp hsorted).2.2 n hn _ List.mem_cons_self
    have hpos : ∀ m ∈ before ++ bs.length :: after, 0 < m := hlengths ▸ by decide
    simp only [h.decode_take rest (hpos n (List.mem_append_left _ hn)) hlt]

theorem Json.textOfBytes_encode {fuel : Nat} {escaping : Bool} {cs : List Char}
    (hfuel : (Utf8.encode cs).length ≤ fuel) :
    textOfBytes fuel escaping (Utf8.encode cs) = cs := by
  induction cs generalizing fuel escaping with
  | nil => cases fuel <;> rfl
  | cons c cs ih =>
      have hspells := Utf8.spells_encodeChar c
      have hfront := frontChar?_of_spells hspells (Utf8.encode cs)
      have hne : Utf8.encodeChar c ≠ [] := fun hnil =>
        absurd (hnil ▸ hspells.length_mem) (by decide)
      obtain ⟨b, bs, hbs⟩ := List.exists_cons_of_ne_nil hne
      rw [Utf8.encode_cons, hbs, List.cons_append] at hfuel ⊢
      rw [hbs, List.cons_append] at hfront
      simp only [List.length_cons, List.length_append] at hfuel
      obtain ⟨fuel, rfl⟩ := Nat.exists_eq_add_of_le' (Nat.le_trans (Nat.le_add_left 1 _) hfuel)
      rw [textOfBytes, hfront]
      exact congrArg (c :: ·) (ih (by omega))

/-- Text that comes in UTF-8 is read as it is. -/
theorem Json.ofBytes_encode (cs : List Char) : ofBytes (Utf8.encode cs) = cs :=
  textOfBytes_encode (Nat.le_refl _)

theorem pageOfBody_of_brings {page : List Build} {text : List Char} {body : List Chunk}
    (htext : Build.PageText page text) (hbody : Brings body text) :
    Client.pageOfBody body = .ok page := by
  rw [Client.pageOfBody, wholeBody?_of_sound hbody.2, hbody.1]
  simp only [Json.ofBytes_encode, Build.pageOfJson?_text htext]

theorem Feed.Record.OneLine.writable {r : Record} (h : r.OneLine) : r.Writable :=
  ⟨h.event, fun d hd => (h.data d hd).2.2⟩

theorem Feed.Record.OneLine.readBack_eq {r : Record} (h : r.OneLine) : r.readBack = r := by
  rw [Record.readBack]
  cases hdata : r.data with
  | none => rw [Option.filter_none, ← hdata]
  | some d => rw [Option.filter_some, if_pos (by simpa using (h.data d hdata).1), ← hdata]

/-- A feed that is brought whole is the feed in memory. -/
theorem ofChunks_of_brings {rs : List Record} {body : List Chunk} (hrs : ∀ r ∈ rs, r.OneLine)
    (hbody : Brings body (writeBody rs)) :
    Arrivals.ofChunks body = Arrivals.ofItems (rs.map .ok) := by
  have hreadBack : (rs.map fun r => (.ok r.readBack : Item)) = rs.map .ok :=
    List.map_congr_left fun r hr => by rw [(hrs r hr).readBack_eq]
  rw [Arrivals.ofChunks, itemsOfChunks_undisturbed hbody.2, hbody.1,
    readWhole_writeBody fun r hr => (hrs r hr).writable, hreadBack]

section
variable {c : Client} {history : List Build} {held : Build → Held} {t : Transport}

theorem page_of_serves (h : c.Serves toAscii history held t)
    (hpages : ∀ limit, ∃ r, c.pageRequest toAscii limit = .ok r) (before limit : Nat) :
    ((c.source toAscii t).page before limit).result = .ok (history.take limit) := by
  obtain ⟨r, hr⟩ := hpages limit
  obtain ⟨u, hu, -, hseen⟩ := request_eq_ok hr
  have hreply := (h before r).page limit u hu hseen
  rw [Client.source]
  simp only [hr]
  generalize t before r = reply at hreply
  cases hreply with
  | mk htext hbody => exact pageOfBody_of_brings htext hbody

theorem feed_of_serves (h : c.Serves toAscii history held t) {b : Build} (hb : b ∈ history)
    (hheld : (held b).Servable) (hfeed : ∃ r, c.feedRequest toAscii b = .ok r) (before : Nat) :
    ((c.source toAscii t).feed before b).result =
      ((Source.stored c.base history fun b => (held b).stored).feed before b).result := by
  obtain ⟨r, hr⟩ := hfeed
  obtain ⟨u, hu, -, hseen⟩ := request_eq_ok hr
  have hreply := (h before r).feed u b hb hu hseen
  rw [Client.source, Source.stored]
  simp only [hr]
  generalize t before r = reply at hreply
  generalize held b = has at hreply hheld
  cases hheld with
  | records hrs =>
      cases hreply with
      | records hlow hhigh hbody =>
          simp only [Client.feedOfReply, Held.stored, if_pos (And.intro hlow hhigh),
            ofChunks_of_brings hrs hbody]
          rfl
  | @refused status hlow hhigh =>
      cases hreply with
      | refused =>
          have hstatus : ¬ (200 ≤ status ∧ status < 300) := fun hok => by omega
          simp only [Client.feedOfReply, Held.stored, if_neg hstatus]
          rfl

/-- Over the server, the client is a source like the history in memory. -/
theorem agrees_of_serves (h : c.Serves toAscii history held t)
    (hheld : ∀ b ∈ history, (held b).Servable)
    (hpages : ∀ limit, ∃ r, c.pageRequest toAscii limit = .ok r)
    (hfeeds : ∀ b ∈ history, ∃ r, c.feedRequest toAscii b = .ok r) :
    (c.source toAscii t).Agrees (.stored c.base history fun b => (held b).stored) history where
  base := rfl
  page := page_of_serves h hpages
  listed := by
    intro before limit page hpage
    obtain rfl := Except.ok.inj hpage
    exact List.take_subset limit history
  feed := fun before b hb => feed_of_serves h hb (hheld b hb) (hfeeds b hb) before

end

theorem exists_eq_ok {ε α : Type} {x : Except ε α} (h : x.isOk = true) : ∃ a, x = .ok a := by
  cases x with
  | error e => cases h
  | ok a => exact ⟨a, rfl⟩

theorem map_ok_toOption {ε α : Type} {xs : List (Except ε α)} (h : ∀ x ∈ xs, ∃ a, x = .ok a) :
    (xs.filterMap Except.toOption).map .ok = xs := by
  induction xs with
  | nil => rfl
  | cons x xs ih =>
      obtain ⟨⟨a, rfl⟩, hxs⟩ := List.forall_mem_cons.mp h
      have hcons : (Except.ok a :: xs).filterMap Except.toOption =
          a :: xs.filterMap Except.toOption := rfl
      rw [hcons, List.map_cons, ih hxs]

/-! ## A server for each history -/

theorem addQuery_injective {u : Url} {name : String} {n m : Nat}
    (h : (u.addQuery name n).seen = (u.addQuery name m).seen) : n = m := by
  have hquery := congrArg Url.query h
  have hdigits : Nat.toDigits 10 n = Nat.toDigits 10 m := by
    simp only [Url.seen, Url.addQuery] at hquery
    split at hquery
    all_goals simpa using hquery
  have hvalue := congrArg (Nat.ofDigitChars 10 · 0) hdigits
  simpa using hvalue

/-- What a server that has this for a build answers. -/
def Held.reply : Held → Reply
  | .records rs => .response 200 [.bytes (Utf8.encode (writeBody rs))]
  | .refused status => .response status []

theorem brings_bytes (text : List Char) : Brings [.bytes (Utf8.encode text)] text :=
  ⟨List.append_nil _, rfl⟩

theorem answersFeed_reply (has : Held) : AnswersFeed has has.reply := by
  cases has with
  | records rs => exact .records (by decide) (by decide) (brings_bytes _)
  | refused status => exact .refused

/-- What a server answers with a page. -/
def pageReply (page : List Build) : Reply :=
  .response 200 [.bytes (Utf8.encode (Build.pageToJson page).toList)]

theorem answersPage_reply (page : List Build) : AnswersPage page (pageReply page) :=
  .mk (Build.pageText_pageToJson page) (brings_bytes _)

theorem rulesOf_http {scheme : List Char}
    (h : scheme = "http".toList ∨ scheme = "https".toList) :
    ∃ own, Url.rulesOf scheme = .special own := by
  rcases h with rfl | rfl
  · exact ⟨80, by decide⟩
  · exact ⟨443, by decide⟩

theorem stream_eq {path : String} (h : PlainPath path) (base : String) :
    ∃ cs, Url.Plain cs ∧ path.toList ++ "/events".toList = '/' :: cs ∧
      (base ++ path ++ "/events").toList = base.toList ++ '/' :: cs := by
  obtain ⟨cs, hpath, hcs⟩ := h
  refine ⟨cs ++ "/events".toList, hcs.append (by decide), ?_, ?_⟩
  · rw [hpath, List.cons_append]
  · rw [String.toList_append, String.toList_append, hpath, List.append_assoc, List.cons_append]

/-- The URLs of feeds have no query, and those of different builds are different. -/
theorem stream_urls_differ {c : Client} {raw : String} {b b' : Build} {u u' : Url}
    (hbase : Endpoint.ofText toAscii raw = .ok c.base) (hb : PlainPath b.apiUrl)
    (hb' : PlainPath b'.apiUrl) (hu : Url.parse toAscii (c.stream b).toList = .ok u)
    (hu' : Url.parse toAscii (c.stream b').toList = .ok u')
    (hhttp : u.scheme = "http".toList ∨ u.scheme = "https".toList) :
    u.query = none ∧ (u.path = u'.path → b.apiUrl = b'.apiUrl) := by
  obtain ⟨-, address, haddress, -, -, hquery, hfragment⟩ := Endpoint.ofText_eq_ok_iff.mp hbase
  obtain ⟨cs, hcs, hwhole, htext⟩ := stream_eq hb c.base
  obtain ⟨ds, hds, hwhole', htext'⟩ := stream_eq hb' c.base
  rw [Client.stream, htext] at hu
  rw [Client.stream, htext'] at hu'
  rw [Url.scheme_append haddress hcs hu] at hhttp
  obtain ⟨own, hrules⟩ := rulesOf_http hhttp
  obtain ⟨before, hbefore⟩ := Url.parse_append haddress hrules hquery hfragment
  refine ⟨(hbefore hcs hu).1, fun hsame => ?_⟩
  obtain rfl := Url.eq_of_path_eq haddress hrules hquery hfragment hcs hds hu hu' hsame
  exact String.toList_injective (List.append_cancel_right (hwhole.trans hwhole'.symm))

/-- Each history of builds with plain paths that differ has a server, at each address. -/
theorem exists_serves {c : Client} {history : List Build} {raw : String} (held : Build → Held)
    (hbase : Endpoint.ofText toAscii raw = .ok c.base)
    (hdistinct : history.Pairwise fun a b => a.apiUrl ≠ b.apiUrl)
    (hplain : ∀ b ∈ history, PlainPath b.apiUrl)
    (hfeeds : ∀ b ∈ history, ∃ r, c.feedRequest toAscii b = .ok r) :
    ∃ t, c.Serves toAscii history held t := by
  have hhttp : ∀ b ∈ history, ∀ {u}, Url.parse toAscii (c.stream b).toList = .ok u →
      u.scheme = "http".toList ∨ u.scheme = "https".toList := by
    intro b hb u hu
    obtain ⟨r, hr⟩ := hfeeds b hb
    obtain ⟨u', hu', hscheme, -⟩ := request_eq_ok hr
    obtain rfl := Except.ok.inj (hu.symm.trans hu')
    exact hscheme
  -- A reply for each request is enough: no URL is that of two pages, two feeds, or of both.
  have hreply : ∀ r : Request, ∃ reply, c.Answers toAscii history held r reply := by
    intro r
    by_cases hpage : ∃ limit u, Url.parse toAscii c.listing.toList = .ok u ∧
        r.url.seen = (u.addQuery "limit" limit).seen
    · obtain ⟨limit, u, hu, hr⟩ := hpage
      refine ⟨pageReply (history.take limit), fun limit' u' hu' hr' => ?_,
        fun v b hb hv hr' => ?_⟩
      · obtain rfl := Except.ok.inj (hu.symm.trans hu')
        obtain rfl := addQuery_injective (hr.symm.trans hr')
        exact answersPage_reply _
      · have hplainb := hplain b hb
        have hnone := (stream_urls_differ hbase hplainb hplainb hv hv (hhttp b hb hv)).1
        have hquery := congrArg Url.query (hr.symm.trans hr')
        exact absurd (hquery.trans hnone) nofun
    · by_cases hfeed : ∃ b ∈ history, ∃ u, Url.parse toAscii (c.stream b).toList = .ok u ∧
          r.url.seen = u.seen
      · obtain ⟨b, hb, u, hu, hr⟩ := hfeed
        refine ⟨(held b).reply, fun limit v hv hr' => absurd ⟨limit, v, hv, hr'⟩ hpage,
          fun v b' hb' hv hr' => ?_⟩
        have hpath := congrArg Url.path (hr.symm.trans hr')
        have hurl := (stream_urls_differ hbase (hplain b hb) (hplain b' hb') hu hv
          (hhttp b hb hu)).2 hpath
        obtain rfl := List.inj_on_of_nodup_map (List.pairwise_map.mpr hdistinct) hb hb' hurl
        exact answersFeed_reply (held b)
      · exact ⟨.none, fun limit v hv hr' => absurd ⟨limit, v, hv, hr'⟩ hpage,
          fun v b' hb' hv hr' => absurd ⟨b', hb', v, hv, hr'⟩ hfeed⟩
  obtain ⟨reply, hreply⟩ := Classical.axiomOfChoice hreply
  exact ⟨fun _ r => reply r, fun _ r => hreply r⟩

/-! ## The examination -/

/-- Over a server with that history, an examination gives the summary or the fault that it gives
over the history in memory, and asks for the same pages and feeds; each of its requests is sent.
If the paths of the builds are plain and differ, there is such a server at each address.  All this
holds however host names are brought to ASCII. -/
theorem examination_over_http (toAscii : Url.ToAscii) (c : Client) (history : List Build)
    (held : Build → Held) (hdistinct : history.Pairwise fun a b => a.apiUrl ≠ b.apiUrl)
    (hplain : ∀ b ∈ history, PlainPath b.apiUrl)
    (hheld : ∀ b ∈ history, (held b).Servable)
    (hpages : ∀ limit, ∃ r, c.pageRequest toAscii limit = .ok r)
    (hfeeds : ∀ b ∈ history, ∃ r, c.feedRequest toAscii b = .ok r) :
    (∀ raw, Endpoint.ofText toAscii raw = .ok c.base → ∃ t, c.Serves toAscii history held t) ∧
    ∀ t, c.Serves toAscii history held t → ∀ colours progress q,
      let remote := examine (c.source toAscii t) colours progress q
      let stored :=
        examine (.stored c.base history fun b => (held b).stored) colours progress q
      remote.result = stored.result ∧ remote.limits = stored.limits ∧
        remote.opened = stored.opened ∧ remote.progress = stored.progress ∧
        (c.requestsOf toAscii remote).map .ok =
          remote.limits.map (c.pageRequest toAscii) ++
            remote.opened.map (c.feedRequest toAscii) := by
  refine ⟨fun raw hbase => exists_serves held hbase hdistinct hplain hfeeds, ?_⟩
  intro t ht colours progress q remote stored
  obtain ⟨hresult, hlimits, hopened, hprogress, hsubset⟩ :=
    examine_of_agrees (agrees_of_serves ht hheld hpages hfeeds) colours progress q
  refine ⟨hresult, hlimits, hopened, hprogress, map_ok_toOption fun request hrequest => ?_⟩
  rcases List.mem_append.mp hrequest with hpage | hfeed
  · obtain ⟨limit, -, rfl⟩ := List.mem_map.mp hpage
    exact hpages limit
  · obtain ⟨b, hb, rfl⟩ := List.mem_map.mp hfeed
    exact hfeeds b (hsubset hb)

/-- A history of two builds at a server's root; the feed of the older one is refused, and only the
other one is asked for. -/
theorem latest_build_over_http :
    let latest : Build := ⟨9, "2", "failed", "/api/v1/builds/9", "main", "develop", "UnitTest"⟩
    let oldest : Build := ⟨7, "1", "failed", "/api/v1/builds/7", "main", "develop", "UnitTest"⟩
    let held : Build → Held := fun b =>
      if b.name = "2" then .records [⟨"ping", none⟩, ⟨"end", some "0"⟩] else .refused 503
    let c : Client := ⟨"https://ci.example.org", "main", "develop", "UnitTest", none⟩
    let toAscii := Url.domainToAscii?
    let minute : Span := .ofSeconds 60
    ∃ t summary, c.Serves toAscii [latest, oldest] held t ∧
      (examine (c.source toAscii t) false (.start true) ⟨1, 1, minute⟩).result = .ok summary ∧
      summary.examined = ["2"] := by
  have hpages : ∀ limit, ∃ r, Client.pageRequest Url.domainToAscii?
      ⟨"https://ci.example.org", "main", "develop", "UnitTest", none⟩ limit = .ok r :=
    fun _ => exists_eq_ok rfl
  have hstream : ∀ path, path = "/api/v1/builds/9" ∨ path = "/api/v1/builds/7" →
      PlainPath path ∧ ∃ r, Client.request Url.domainToAscii?
        ⟨"https://ci.example.org", "main", "develop", "UnitTest", none⟩
        ("https://ci.example.org" ++ path ++ "/events") none "text/event-stream" = .ok r := by
    rintro path (rfl | rfl)
    · exact ⟨⟨_, rfl, by decide +kernel⟩, exists_eq_ok (by decide +kernel)⟩
    · exact ⟨⟨_, rfl, by decide +kernel⟩, exists_eq_ok (by decide +kernel)⟩
  intro latest oldest held c toAscii minute
  have hdistinct : [latest, oldest].Pairwise fun a b => a.apiUrl ≠ b.apiUrl := by decide +kernel
  have hlatest := hstream latest.apiUrl (.inl rfl)
  have holdest := hstream oldest.apiUrl (.inr rfl)
  have hplain : ∀ b ∈ [latest, oldest], PlainPath b.apiUrl :=
    List.forall_mem_cons.mpr ⟨hlatest.1, List.forall_mem_singleton.mpr holdest.1⟩
  have hfeeds : ∀ b ∈ [latest, oldest], ∃ r, c.feedRequest toAscii b = .ok r :=
    List.forall_mem_cons.mpr ⟨hlatest.2, List.forall_mem_singleton.mpr holdest.2⟩
  have hheld : ∀ b ∈ [latest, oldest], (held b).Servable := by
    have hping : Record.OneLine ⟨"ping", none⟩ := ⟨by decide, nofun⟩
    have hend : Record.OneLine ⟨"end", some "0"⟩ :=
      ⟨by decide, fun d hd => Option.some.inj hd ▸ by decide⟩
    exact List.forall_mem_cons.mpr ⟨.records (List.forall_mem_cons.mpr
      ⟨hping, List.forall_mem_singleton.mpr hend⟩),
      List.forall_mem_singleton.mpr (.refused (by decide) (by decide))⟩
  obtain ⟨hserver, hsame⟩ :=
    examination_over_http toAscii c [latest, oldest] held hdistinct hplain hheld hpages hfeeds
  obtain ⟨t, ht⟩ := hserver "https://ci.example.org/" rfl
  have hremote := (hsame t ht false (.start true) ⟨1, 1, minute⟩).1
  let s := Source.stored c.base [latest, oldest] fun b => (held b).stored
  have hpage : (fetchPage s 1).result = .ok [latest] := rfl
  have hsel : Selection.ofPage [latest] 1 = .ok ⟨[latest]⟩ := by
    have hcompleted : Selection.completed [latest] = [latest] := List.mergeSort_singleton latest
    rw [Selection.ofPage, hcompleted]
    rfl
  have hvisit : (visit s minute 1 latest).result = .ok ⟨"unknown", "", .endEvent⟩ := by rfl
  have hstored : (examine s false (.start true) ⟨1, 1, minute⟩).result =
      .ok (summarise false c.base
        [((visit s minute 1 latest).build, ⟨"unknown", "", .endEvent⟩)]) := by
    rw [(examine_visits false (.start true) hpage hsel).2.1]
    show (outcomes (visits s minute 1 [latest])).map _ = _
    rw [visits_cons_ok hvisit, outcomes_cons_ok hvisit]
    rfl
  refine ⟨t, _, ht, hremote.trans hstored, ?_⟩
  exact congrArg (fun b : Build => [b.name]) (visit_build s minute 1 latest)

end JobHealth
