import MLocust.Lib.Strip
import MLocust.Lib.Program
import MLocust.Lib.Ending
import MLocust.Lib.Tape
import MLocust.Lib.DataTree
import MLocust.Lib.KeyOrder
import MLocust.Lib.DeepMerge
import MLocust.Lib.DeepMergeExec
import MLocust.Lib.Overlay
import MLocust.Lib.ListsAlong
import MLocust.Lib.SizedLists
import MLocust.Lib.Keys
import MLocust.Lib.Flatten
import MLocust.Lib.Numeral
import MLocust.Lib.IntText
import MLocust.Lib.Relabel
import MLocust.Lib.Csv
import MLocust.Lib.Answered
import MLocust.Lib.Shared
import MLocust.Faker.PyStr
import MLocust.Faker.World
import MLocust.Faker.Procpath
import MLocust.Faker.BulkFetch
import MLocust.Faker.Path
import MLocust.Faker.RowRun
import MLocust.Faker.ProcpathErrors
import MLocust.Faker.DocRun
import MLocust.Faker.TreePaths
import MLocust.Faker.LeafMerge
import MLocust.Faker.Override
import MLocust.Faker.Reference
import MLocust.Faker.Commute
import MLocust.Faker.RowLists
import MLocust.Faker.Ids
import MLocust.Faker.IdRows
import MLocust.Faker.IdBatch
import MLocust.Faker.ArraySize
import MLocust.Faker.EqualLengths
import MLocust.Faker.Blind
import MLocust.Faker.History
import MLocust.Faker.SizeBounds
import MLocust.Faker.Spacing
import MLocust.Faker.Whitespace
import MLocust.Faker.ModelFile
import MLocust.Faker.ModelCheck
import MLocust.Faker.KeyOrder
import MLocust.Faker.FieldNames
import MLocust.Faker.Description
import MLocust.Locustfile.Bulkinsert
import MLocust.Locustfile.Backoff
import MLocust.Locustfile.Query
import MLocust.Locustfile.Outcome
import MLocust.Locustfile.Worker
import MLocust.Locustfile.Identifiers
import MLocust.Locustfile.BrokenModel
import MLocust.Locustfile.OneCall
import MLocust.Locustfile.SharedSize
import MLocust.Locustfile.Host
