import ActiveBsp.Management.EarlyRelease

/-!
# Several fetches of one future

After the registration any number of fetches of a future is served. Before it
one fetch waits, and the second one breaks an assertion. A fetch also needs the
parts of the distribution that the head itself has to send: a part that is not
full yet has no data, and breaks an assertion in its turn.
-/
namespace ActiveBsp.SharedFetch

open Library ActorServer Serialization.ArchiveFormat

set_option autoImplicit false

variable {codec : Codec} {key pid : Int} {t : PartTable} {s s' : ActorServer} {data : Bytes}
  {dv : VectorDistribution} {is : List Input}

def waiting (key : Int) (s : ActorServer) : List FetchMessage := (s.askedFetch key).toList

/-- The future 5 is there, and of its part at this process the buffer, but no piece yet. -/
theorem unfilled_part_fetch_fails :
    (Act.trace EarlyRelease.sampleStep [.message 0 (.registerFutureData 5 EarlyRelease.sampleData),
        .message 4 (.fetch EarlyRelease.sampleFetch)]
      { EarlyRelease.sampleHead with
        pid := 1, pids := [1], dataStore := .single 3 (.prepared 40) }).2 =
      .error (.assertion .fetchDv) := rfl

end ActiveBsp.SharedFetch
