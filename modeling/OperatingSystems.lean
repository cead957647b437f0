import OperatingSystems.Brdd.Bounds
import OperatingSystems.Brdd.Cleanup
import OperatingSystems.Brdd.Device
import OperatingSystems.Brdd.PlainText
import OperatingSystems.Brdd.ReadBack
import OperatingSystems.Brdd.RequestLoop
import OperatingSystems.MersenneTwister.Keys
import OperatingSystems.MersenneTwister.Race
import OperatingSystems.MersenneTwister.Reals
import OperatingSystems.Philosophers.Liveness
import OperatingSystems.ProducerConsumer.Items
import OperatingSystems.ProducerConsumer.Progress
import OperatingSystems.SearchInsertDelete.Atomicity
import OperatingSystems.SearchInsertDelete.OneThread
import OperatingSystems.SearchInsertDelete.Waiting
import OperatingSystems.SharedResource.Batches
import OperatingSystems.SharedResource.Service
import OperatingSystems.Slob.Accounting
import OperatingSystems.Slob.BestFit
import OperatingSystems.Slob.FirstFit
import OperatingSystems.Slob.GivingBack
import OperatingSystems.Slob.Growth
import OperatingSystems.Slob.Headers
import OperatingSystems.Slob.History
import OperatingSystems.Slob.LiveData
import OperatingSystems.Slob.ReadSections
import OperatingSystems.Slob.Rotation
import OperatingSystems.Slob.RoundTrip
import OperatingSystems.Slob.Selection
import OperatingSystems.Slob.SizeClasses
import OperatingSystems.Sstf.Distances
import OperatingSystems.Sstf.Elevator
import OperatingSystems.Sstf.Requests
import OperatingSystems.Sstf.SameSector
import OperatingSystems.Sstf.SeekOrder
